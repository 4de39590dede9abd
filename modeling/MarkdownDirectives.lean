import MarkdownDirectives.Main
import MarkdownDirectives.Proofs.Frame
import MarkdownDirectives.Proofs.LinkRuns
import MarkdownDirectives.Proofs.Nesting
import MarkdownDirectives.Proofs.LineBreaks
import MarkdownDirectives.Proofs.TagLines
import MarkdownDirectives.Proofs.Blocks
import MarkdownDirectives.Proofs.Reading
import MarkdownDirectives.Proofs.Splitting
import MarkdownDirectives.Proofs.Wrapping
import MarkdownDirectives.Proofs.StaleBody
import MarkdownDirectives.Proofs.Diagnostics
import MarkdownDirectives.Proofs.Page
import MarkdownDirectives.Proofs.Replay
import MarkdownDirectives.Proofs.Composition
import MarkdownDirectives.Proofs.Rendered
import MarkdownDirectives.Proofs.Commenting
import MarkdownDirectives.Proofs.FixedPoint
import MarkdownDirectives.Proofs.Footer
import MarkdownDirectives.Proofs.Roundtrip
import MarkdownDirectives.Proofs.OpenEnvelopes
import MarkdownDirectives.Proofs.Inclusion
import MarkdownDirectives.Proofs.Grammar
import MarkdownDirectives.Proofs.Derivations
import MarkdownDirectives.Proofs.Patterns
import MarkdownDirectives.Proofs.PathGrammar
import MarkdownDirectives.Proofs.PathPatterns
import MarkdownDirectives.Proofs.Escapes
import MarkdownDirectives.Proofs.Spelling
import MarkdownDirectives.Proofs.Printing
import MarkdownDirectives.Proofs.WholeNumbers
import MarkdownDirectives.Proofs.Desugaring
import MarkdownDirectives.Proofs.NormalForm
import MarkdownDirectives.Proofs.LinkBlock
import MarkdownDirectives.Proofs.TagRewriting
import MarkdownDirectives.Proofs.ValueComments
import MarkdownDirectives.Proofs.Lexemes
import MarkdownDirectives.Proofs.MaximalMunch
import MarkdownDirectives.Proofs.StringLiterals
import MarkdownDirectives.Proofs.EmbeddedPaths
import MarkdownDirectives.Proofs.Lookahead
import MarkdownDirectives.Proofs.ErrorPlaces
import MarkdownDirectives.Proofs.Places
import MarkdownDirectives.Proofs.FileTrees
import MarkdownDirectives.Proofs.Backups
import MarkdownDirectives.Proofs.StrandedFolders
import MarkdownDirectives.Proofs.Processing
import MarkdownDirectives.Proofs.DryRuns
import MarkdownDirectives.Proofs.SuffixedNames
import MarkdownDirectives.Proofs.SuffixedRuns
import MarkdownDirectives.Proofs.Matching
import MarkdownDirectives.Proofs.Calendar
import MarkdownDirectives.Proofs.StampReading
import MarkdownDirectives.Proofs.CleanPaths
import MarkdownDirectives.Proofs.References
import MarkdownDirectives.Proofs.DocumentSources
import MarkdownDirectives.Proofs.DiagnosticComments
