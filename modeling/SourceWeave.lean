import SourceWeave.StableSort
import SourceWeave.Position
import SourceWeave.Segment
import SourceWeave.Error
import SourceWeave.PartitionPoint
import SourceWeave.Vlq
import SourceWeave.Mappings
import SourceWeave.Text.Utf16
import SourceWeave.Text.Indexed
import SourceWeave.Registry
import SourceWeave.Mapping
import SourceWeave.Mapping.Cleanup
import SourceWeave.Mapping.Readable
import SourceWeave.Json.Value
import SourceWeave.Json.Reader
import SourceWeave.Json.Record
import SourceWeave.Hash.Feed
import SourceWeave.Hash.Xxh3
import SourceWeave.Hash.Digest
import SourceWeave.WireMap
import SourceWeave.Json.Codec
import SourceWeave.TracedText
import SourceWeave.Assembly
import SourceWeave.InnerMap
import SourceWeave.Edit
import SourceWeave.SourceTree
import SourceWeave.SourceTree.Leaf
import SourceWeave.SourceTree.Weave
import SourceWeave.SourceTree.Feed
import SourceWeave.Options
import SourceWeave.Scenario.Greeting
import SourceWeave.Proofs.Search
import SourceWeave.Proofs.Places
import SourceWeave.Proofs.Units
import SourceWeave.Proofs.TextIndex
import SourceWeave.Proofs.Lookup
import SourceWeave.Proofs.Pruning
import SourceWeave.Proofs.Reading
import SourceWeave.Proofs.Tables
import SourceWeave.Proofs.Building
import SourceWeave.Proofs.Excerpt
import SourceWeave.Proofs.Cutting
import SourceWeave.Proofs.Cells
import SourceWeave.Proofs.AssemblyStep
import SourceWeave.Proofs.Coherence
import SourceWeave.Proofs.Composition
import SourceWeave.Proofs.Annotation
import SourceWeave.Proofs.Assembled
import SourceWeave.Proofs.Canonical
import SourceWeave.Proofs.Outcomes
import SourceWeave.Proofs.EditLists
import SourceWeave.Proofs.Splicing
import SourceWeave.Proofs.Weaving
import SourceWeave.Proofs.Editing
import SourceWeave.Proofs.EditOrder
import SourceWeave.Proofs.Joining
import SourceWeave.Proofs.Regrouping
import SourceWeave.Proofs.EditLaws
import SourceWeave.Proofs.Authored
import SourceWeave.Proofs.Origins
import SourceWeave.Proofs.Decoding
import SourceWeave.Proofs.Passing
import SourceWeave.Proofs.WellFormed
import SourceWeave.Proofs.LineMaps
import SourceWeave.Proofs.Groups
import SourceWeave.Proofs.Language
import SourceWeave.Proofs.RoundTrip
import SourceWeave.Proofs.Listings
import SourceWeave.Proofs.LoneLeaves
import SourceWeave.Proofs.Agreement
import SourceWeave.Proofs.GroupOutcomes
import SourceWeave.Proofs.Landing
import SourceWeave.Proofs.Framing
import SourceWeave.Proofs.TreeFeed
import SourceWeave.Proofs.WireRoundTrip
import SourceWeave.Proofs.MappingFeed
import SourceWeave.Proofs.StackDiscipline
import SourceWeave.Proofs.TextAlone
import SourceWeave.Proofs.JsonRoundTrip
import SourceWeave.Proofs.Respelling
import SourceWeave.Proofs.Offsets
import SourceWeave.Proofs.Redirection
import SourceWeave.Proofs.RedirectedTables
import SourceWeave.Proofs.Removal
import SourceWeave.Proofs.EditedText
import SourceWeave.Proofs.Folding
import SourceWeave.Proofs.Outlines
import SourceWeave.Proofs.OwnFiles
import SourceWeave.Proofs.Registrations
import SourceWeave.Proofs.Describing
import SourceWeave.Proofs.GrownIndex
import SourceWeave.Proofs.PrefixCode
import SourceWeave.Proofs.WordSizes
import SourceWeave.Proofs.GuardedAssembly
import SourceWeave.Proofs.Correspondence
import SourceWeave.Proofs.Slices
import SourceWeave.Proofs.Scans
import SourceWeave.Proofs.Traceability
import SourceWeave.Proofs.Cleanup
import SourceWeave.Proofs.Relocation
