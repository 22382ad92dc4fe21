import MarkupTemplate.CommandLine.Directory
import MarkupTemplate.Document.Acyclic
import MarkupTemplate.Main
import MarkupTemplate.Proofs.CompiledProgram
import MarkupTemplate.Proofs.Invisibility
import MarkupTemplate.Proofs.Linearisation
import MarkupTemplate.Proofs.LoweredDiagnostics
import MarkupTemplate.Proofs.LoweredNodes
import MarkupTemplate.Proofs.LoweredShape
import MarkupTemplate.Proofs.Nesting
import MarkupTemplate.Proofs.Placement
import MarkupTemplate.Proofs.PlainText
import MarkupTemplate.Proofs.Preservation
import MarkupTemplate.Proofs.Serialisation
import MarkupTemplate.Proofs.Tiling
import MarkupTemplate.Proofs.Transcription
import MarkupTemplate.Proofs.Troubles
import MarkupTemplate.Proofs.Writing
import MarkupTemplate.Render.ClosureLog
import MarkupTemplate.Proofs.Checking
import MarkupTemplate.Proofs.OutlineReading
import MarkupTemplate.Proofs.Growth
import MarkupTemplate.Proofs.Splicing
import MarkupTemplate.Proofs.BehindSign
import MarkupTemplate.Proofs.Closing
import MarkupTemplate.Proofs.Succession
import MarkupTemplate.Proofs.LiteralReading
import MarkupTemplate.Proofs.Confinement
import MarkupTemplate.Proofs.LoweringOutcome
import MarkupTemplate.Proofs.Refusal
import MarkupTemplate.Proofs.Obstacles
import MarkupTemplate.Proofs.Halting
import MarkupTemplate.Proofs.SingleUse
import MarkupTemplate.Proofs.Spelling
import MarkupTemplate.Proofs.Places
import MarkupTemplate.Proofs.Rearrangement
import MarkupTemplate.Proofs.Leftovers
import MarkupTemplate.Proofs.Remaining
import MarkupTemplate.Proofs.FirstTag
import MarkupTemplate.Proofs.OwnAttributes
import MarkupTemplate.Proofs.Enclosure
import MarkupTemplate.Proofs.Lookups
import MarkupTemplate.Proofs.HeldHoles
import MarkupTemplate.Proofs.Acyclicity
import MarkupTemplate.Proofs.Footprint
