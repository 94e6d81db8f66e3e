import WebFonts.Build.Basic
import WebFonts.Build.Name
import WebFonts.Css.Component
import WebFonts.Css.Cursor
import WebFonts.Css.Declaration
import WebFonts.Css.Extent
import WebFonts.Css.FamilyUse
import WebFonts.Css.Fault
import WebFonts.Css.Lexeme
import WebFonts.Css.Name
import WebFonts.Css.NamedFamilies
import WebFonts.Css.Node
import WebFonts.Css.Numeral
import WebFonts.Css.Pushdown
import WebFonts.Css.Sheet
import WebFonts.Css.Span
import WebFonts.Css.Token
import WebFonts.Css.Trivia
import WebFonts.Css.Visit
import WebFonts.Decimal.Double
import WebFonts.Decimal.Places
import WebFonts.Decimal.Plain
import WebFonts.Decimal.Shortest
import WebFonts.Font.Codec
import WebFonts.Font.Face
import WebFonts.Font.Family
import WebFonts.Font.Generic
import WebFonts.Font.Metrics
import WebFonts.Json.Decoder
import WebFonts.Json.Fault
import WebFonts.Json.Leaf
import WebFonts.Json.Numeral
import WebFonts.Json.Quoted
import WebFonts.Json.Reader
import WebFonts.Json.Record
import WebFonts.Json.Tree
import WebFonts.Minifier
import WebFonts.Overlay
import WebFonts.Preload.Policy
import WebFonts.Preload.Registry
import WebFonts.Resolver.Basic
import WebFonts.Resolver.Table
import WebFonts.Revision.Basic
import WebFonts.Revision.Draft
import WebFonts.Revision.Options
import WebFonts.Rule.Address
import WebFonts.Rule.FontFace
import WebFonts.Rule.Overrides
import WebFonts.Rule.Quoted
import WebFonts.Settings
import WebFonts.Text.Blank
import WebFonts.Text.Bytes
import WebFonts.Text.Case
import WebFonts.Text.Hex
import WebFonts.Proofs.ApplicationOrder
import WebFonts.Proofs.BundleRevision
import WebFonts.Proofs.Concatenation
import WebFonts.Proofs.DeclaredFamilies
import WebFonts.Proofs.ExactUses
import WebFonts.Proofs.HookRuns
import WebFonts.Proofs.LocatedFaults
import WebFonts.Proofs.OpaqueBlocks
import WebFonts.Proofs.OverlayRuns
import WebFonts.Proofs.RecordedPreloads
import WebFonts.Proofs.RegistryRuns
import WebFonts.Proofs.RevisionFaults
import WebFonts.Proofs.SecondPass
import WebFonts.Proofs.SpliceOffsets
import WebFonts.Proofs.StandingAlone
import WebFonts.Proofs.WithoutFaces
import WebFonts.Proofs.QuotedValues
import WebFonts.Proofs.EscapedNames
import WebFonts.Proofs.FamilyEntries
import WebFonts.Proofs.MarkAgreement
import WebFonts.Proofs.DocumentOrder
import WebFonts.Proofs.CustomValues
import WebFonts.Proofs.RulesReadBack
import WebFonts.Proofs.FontShorthand
import WebFonts.Proofs.RelativeAddresses
import WebFonts.Proofs.FallbackTables
import WebFonts.Proofs.ReturnedSheets
import WebFonts.Proofs.MetricOverrides
import WebFonts.Proofs.CharacterScan
import WebFonts.Proofs.TrailingTrivia
import WebFonts.Proofs.TableRuns
import WebFonts.Proofs.RecordMembers
import WebFonts.Proofs.CodecRoundTrip
