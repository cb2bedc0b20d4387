import NativeApi.Main
import NativeApi.Proofs.Expansion
import NativeApi.Proofs.Reachable
import NativeApi.Proofs.Dependence
import NativeApi.Proofs.Ownership
import NativeApi.Proofs.Position
import NativeApi.Proofs.Encodable
import NativeApi.Proofs.Renderable
import NativeApi.Proofs.GuidText
import NativeApi.Proofs.Operand
import NativeApi.Proofs.DefinitionLanguage
import NativeApi.Proofs.LiteralRange
import NativeApi.Proofs.Refusal
import NativeApi.Proofs.FailurePlace
import NativeApi.Proofs.NamedField
import NativeApi.Proofs.Slots
import NativeApi.Proofs.Enumerations
import NativeApi.Proofs.Mention
import NativeApi.Proofs.Association
import NativeApi.Proofs.Indexes
import NativeApi.Proofs.Growth
import NativeApi.Proofs.Integrity
import NativeApi.Proofs.Faults
import NativeApi.Proofs.Cycles
import NativeApi.Proofs.Nesting
import NativeApi.Proofs.InclusionDepth
import NativeApi.Proofs.Placement
import NativeApi.Proofs.Runs
import NativeApi.Proofs.LineContent
import NativeApi.Proofs.Splitting
import NativeApi.Proofs.Writing
import NativeApi.Proofs.Layout
import NativeApi.Proofs.History
import NativeApi.Proofs.ModelTexts
import NativeApi.Proofs.OneLine
import NativeApi.Proofs.PrintedLines
import NativeApi.Proofs.Commutation
import NativeApi.Proofs.Imports
import NativeApi.Proofs.Brackets
import NativeApi.Proofs.Comments
import NativeApi.Proofs.BracketedText
import NativeApi.Proofs.RenderFault
import NativeApi.Proofs.Truncation
import NativeApi.Proofs.SignatureText
import NativeApi.Proofs.WordBytes
import NativeApi.Proofs.Numerals
import NativeApi.Proofs.Literals
import NativeApi.Proofs.AttributeWords
import NativeApi.Proofs.HexText
import NativeApi.Proofs.GuidForms
import NativeApi.Proofs.SelfDelimiting
import NativeApi.Proofs.PayloadText
import NativeApi.Proofs.PathWalks
import NativeApi.Proofs.NormalPath
import NativeApi.Proofs.IncludePaths
import NativeApi.Proofs.Scanning
import NativeApi.Proofs.ResolutionOrder
import NativeApi.Proofs.Atomicity
