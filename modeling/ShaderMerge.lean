import ShaderMerge.Cache
import ShaderMerge.Condition.Expr
import ShaderMerge.Condition.Filter
import ShaderMerge.Condition.Scopes
import ShaderMerge.Condition.Truth
import ShaderMerge.Condition.Usage
import ShaderMerge.ContentHash
import ShaderMerge.Directive
import ShaderMerge.Include.Engine
import ShaderMerge.Include.Line
import ShaderMerge.Include.Path
import ShaderMerge.Include.Project
import ShaderMerge.Include.Sources
import ShaderMerge.Include.Walk
import ShaderMerge.LightMode
import ShaderMerge.LogicalLine
import ShaderMerge.Number.Binary32
import ShaderMerge.Number.Decimal
import ShaderMerge.Number.Shortest
import ShaderMerge.Property.Default
import ShaderMerge.Property.Line
import ShaderMerge.Property.Type
import ShaderMerge.Region.Comparison
import ShaderMerge.Region.Filter
import ShaderMerge.Shader.Builder
import ShaderMerge.Shader.Command
import ShaderMerge.Shader.Error
import ShaderMerge.Shader.Model
import ShaderMerge.Signature.Brackets
import ShaderMerge.Signature.Function
import ShaderMerge.Signature.Header
import ShaderMerge.Signature.Parameter
import ShaderMerge.Signature.Stream
import ShaderMerge.Stage
import ShaderMerge.Table
import ShaderMerge.Text.Blank
import ShaderMerge.Text.Scan
import ShaderMerge.Text.Word
import ShaderMerge.Value
import ShaderMerge.Variant.BodyEdit
import ShaderMerge.Variant.Carrier
import ShaderMerge.Variant.EntryPoint
import ShaderMerge.Variant.Error
import ShaderMerge.Variant.Options
import ShaderMerge.Variant.Output
import ShaderMerge.Variant.Plan
import ShaderMerge.Variant.Program
import ShaderMerge.Variant.Registers
import ShaderMerge.Variant.Selection
import ShaderMerge.Variant.SignatureEdit
import ShaderMerge.Variant.SlicedTexture
import ShaderMerge.Variant.Substitution
import ShaderMerge.Variant.Writer
import ShaderMerge.Proofs.Condition.Preprocessor
import ShaderMerge.Proofs.Condition.Soundness
import ShaderMerge.Proofs.Condition.Groups
import ShaderMerge.Proofs.Condition.Kept
import ShaderMerge.Proofs.Condition.Knowledge
import ShaderMerge.Proofs.Condition.Preservation
import ShaderMerge.Proofs.Include.Markers
import ShaderMerge.Proofs.Shader.Blocks
import ShaderMerge.Proofs.Variant.Numbering
import ShaderMerge.Proofs.Include.Frames
import ShaderMerge.Proofs.Variant.Generated
import ShaderMerge.Proofs.Variant.Growth
import ShaderMerge.Proofs.Variant.Inlining
import ShaderMerge.Proofs.Variant.Outline
import ShaderMerge.Proofs.Variant.Wholeness
import ShaderMerge.Proofs.Condition.Notes
import ShaderMerge.Proofs.Include.Document
import ShaderMerge.Proofs.Include.Expansion
import ShaderMerge.Proofs.Variant.Lockstep
import ShaderMerge.Proofs.Region.Knowledge
import ShaderMerge.Proofs.Variant.RegionValues
import ShaderMerge.Proofs.Include.Termination
import ShaderMerge.Proofs.Region.Nesting
import ShaderMerge.Proofs.Variant.DroppedRegion
import ShaderMerge.Proofs.Variant.Preservation
import ShaderMerge.Proofs.Variant.Provenance
import ShaderMerge.Proofs.Variant.Emission
import ShaderMerge.Proofs.Variant.Accounting
import ShaderMerge.Proofs.Include.Requests
import ShaderMerge.Proofs.Include.Resolution
import ShaderMerge.Proofs.Include.Loading
import ShaderMerge.Proofs.Include.Closure
import ShaderMerge.Proofs.Include.Announcements
import ShaderMerge.Proofs.Variant.Carriers
import ShaderMerge.Proofs.Variant.Segments
import ShaderMerge.Proofs.Signature.Pieces
import ShaderMerge.Proofs.Variant.Mentions
import ShaderMerge.Proofs.Variant.Definitions
import ShaderMerge.Proofs.Condition.Directives
import ShaderMerge.Proofs.Variant.Script
import ShaderMerge.Proofs.Variant.SignatureDirectives
import ShaderMerge.Proofs.Variant.DeclarationForm
import ShaderMerge.Proofs.Variant.Deeds
import ShaderMerge.Proofs.Variant.Readings
import ShaderMerge.Proofs.Variant.KeptDeclarations
import ShaderMerge.Proofs.Variant.Assignments
import ShaderMerge.Proofs.Variant.Mirrors
import ShaderMerge.Proofs.Variant.Fates
import ShaderMerge.Proofs.Variant.Prologues
import ShaderMerge.Proofs.Shader.PropertyKinds
import ShaderMerge.Proofs.Condition.Monotonicity
import ShaderMerge.Proofs.Variant.ChunkNames
import ShaderMerge.Proofs.Variant.Release
import ShaderMerge.Proofs.Variant.Trail
import ShaderMerge.Proofs.Variant.Identity
import ShaderMerge.Proofs.Text.Pieces
import ShaderMerge.Proofs.Condition.Derivation
import ShaderMerge.Proofs.Condition.Grammar
import ShaderMerge.Proofs.Number.Hexadecimal
import ShaderMerge.Proofs.Variant.Selection
import ShaderMerge.Proofs.Variant.SelectionCode
import ShaderMerge.Proofs.Shader.EntryPoints
import ShaderMerge.Proofs.Shader.Programs
import ShaderMerge.Proofs.Shader.Tessellation
import ShaderMerge.Proofs.Region.Comparisons
import ShaderMerge.Proofs.Shader.Layout
import ShaderMerge.Proofs.Shader.Declarations
import ShaderMerge.Proofs.Shader.Invariants
import ShaderMerge.Proofs.Property.Rereading
import ShaderMerge.Proofs.Variant.PropertyBlock
import ShaderMerge.Proofs.Variant.PropertyWriting
import ShaderMerge.Proofs.Variant.PropertyLists
import ShaderMerge.Proofs.Variant.PropertyNames
import ShaderMerge.Proofs.Variant.RegisterLayout
import ShaderMerge.Proofs.Variant.RegisterCode
import ShaderMerge.Proofs.Variant.Bodies
import ShaderMerge.Proofs.Variant.EntryNotes
import ShaderMerge.Proofs.Variant.EntryArms
import ShaderMerge.Proofs.Variant.MaterialCount
import ShaderMerge.Proofs.Variant.Slices
import ShaderMerge.Proofs.Variant.EarlyReturn
import ShaderMerge.Proofs.Variant.EntryParameters
import ShaderMerge.Proofs.Region.Forest
import ShaderMerge.Proofs.Include.Flattening
import ShaderMerge.Proofs.LogicalLine.Normalization
import ShaderMerge.Proofs.Variant.BlockSymbols
import ShaderMerge.Proofs.Signature.Printing
import ShaderMerge.Proofs.Property.Defaults
import ShaderMerge.Proofs.Cache
import ShaderMerge.Proofs.Include.Paths
import ShaderMerge.Proofs.Condition.Scopes
import ShaderMerge.Proofs.Condition.DroppedLines
