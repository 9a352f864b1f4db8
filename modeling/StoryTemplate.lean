import StoryTemplate.Text.Basic
import StoryTemplate.Text.Split
import StoryTemplate.Text.Integer
import StoryTemplate.Dict
import StoryTemplate.Source
import StoryTemplate.Braces
import StoryTemplate.Fault
import StoryTemplate.Config
import StoryTemplate.Context
import StoryTemplate.Rendered
import StoryTemplate.Section
import StoryTemplate.Declaration
import StoryTemplate.Header
import StoryTemplate.Pass
import StoryTemplate.Injection.Expression
import StoryTemplate.Injection.Expansion
import StoryTemplate.Conditional.Expression
import StoryTemplate.Conditional.Evaluation
import StoryTemplate.Anchor.Expression
import StoryTemplate.Anchor.Marking
import StoryTemplate.Render
import StoryTemplate.Engine
import StoryTemplate.Data.Node
import StoryTemplate.Data.Json
import StoryTemplate.Data.Decode
import StoryTemplate.VariablesFile
import StoryTemplate.Data.Yaml.Basic
import StoryTemplate.Data.Yaml.Scalar
import StoryTemplate.Data.Yaml.Token
import StoryTemplate.Data.Yaml
import StoryTemplate.Data.Yaml.Spelling
import StoryTemplate.Report.Basic
import StoryTemplate.Report.Json
import StoryTemplate.Report.Yaml
import StoryTemplate.CommandLine.Options
import StoryTemplate.CommandLine.Run
import StoryTemplate.CommandLine.Notations
import StoryTemplate.Main
import StoryTemplate.Proofs.Braces.Locality
import StoryTemplate.Proofs.Source.Views
import StoryTemplate.Proofs.Source.Windows
import StoryTemplate.Proofs.Conditional.Locality
import StoryTemplate.Proofs.Conditional.Branches
import StoryTemplate.Proofs.Conditional.Recursion
import StoryTemplate.Proofs.Anchor.Locality
import StoryTemplate.Proofs.Anchor.Outline
import StoryTemplate.Proofs.Anchor.Cuts
import StoryTemplate.Proofs.Anchor.Objects
import StoryTemplate.Proofs.Anchor.Settled
import StoryTemplate.Proofs.Anchor.Located
import StoryTemplate.Proofs.Stages
import StoryTemplate.Proofs.Injection.Pattern
import StoryTemplate.Proofs.Injection.Rewriting
import StoryTemplate.Proofs.Injection.Parallel
import StoryTemplate.Proofs.Injection.Expanding
import StoryTemplate.Proofs.Injection.Depth
import StoryTemplate.Proofs.Anchor.Seams
import StoryTemplate.Proofs.Anchor.Frames
import StoryTemplate.Proofs.Conditional.Settled
import StoryTemplate.Proofs.Injection.Agreement
import StoryTemplate.Proofs.Residue
import StoryTemplate.Proofs.Braces.Solid
import StoryTemplate.Proofs.Braces.Division
import StoryTemplate.Proofs.Conditional.Form
import StoryTemplate.Proofs.Conditional.Grammar
import StoryTemplate.Proofs.Conditional.Bodies
import StoryTemplate.Proofs.Anchor.Bodies
import StoryTemplate.Proofs.Template.Printing
import StoryTemplate.Proofs.Template.Choices
import StoryTemplate.Proofs.Template.Meaning
import StoryTemplate.Proofs.Template.Rendering
import StoryTemplate.Proofs.Injection.Recursion
import StoryTemplate.Proofs.Injection.Reach
import StoryTemplate.Proofs.Session
import StoryTemplate.Proofs.Braces.Surplus
import StoryTemplate.Proofs.Concatenation.Passes
import StoryTemplate.Proofs.Concatenation.Rendering
import StoryTemplate.Proofs.Injection.Substitution
import StoryTemplate.Proofs.Idle
import StoryTemplate.Proofs.PassBound
import StoryTemplate.Proofs.Extension
import StoryTemplate.Proofs.Text.Cuts
import StoryTemplate.Proofs.Code.Lines
import StoryTemplate.Proofs.Code.Written
import StoryTemplate.Proofs.Code.Canonical
import StoryTemplate.Proofs.Code.Reading
import StoryTemplate.Proofs.Bytes.Anchor
import StoryTemplate.Proofs.Bytes.Conditional
import StoryTemplate.Proofs.Bytes.Evaluation
import StoryTemplate.Proofs.Bytes.Positions
import StoryTemplate.Proofs.Bytes.Braces
import StoryTemplate.Proofs.Bytes.Nesting
import StoryTemplate.Proofs.Bytes.Marking
import StoryTemplate.Proofs.Bytes.Injection
import StoryTemplate.Proofs.Bytes.Rendering
import StoryTemplate.Proofs.Anchor.Extraction
import StoryTemplate.Proofs.Unset
import StoryTemplate.Proofs.Code.Conversion
import StoryTemplate.Proofs.Conditional.Deletion
import StoryTemplate.Proofs.CommandLine.Printing
import StoryTemplate.Proofs.CommandLine.Overlay
import StoryTemplate.Proofs.Braces.Counting
import StoryTemplate.Proofs.Braces.Parts
import StoryTemplate.Proofs.Headers
import StoryTemplate.Proofs.Text.Numerals
import StoryTemplate.Proofs.Code.Integers
