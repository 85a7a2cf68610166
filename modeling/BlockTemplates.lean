import BlockTemplates.Main
import BlockTemplates.Markup.Equality
import BlockTemplates.Proofs.Reading.Parts
import BlockTemplates.Proofs.Reading.Walk
import BlockTemplates.Proofs.Rendering.Steps
import BlockTemplates.Proofs.Reading.Chain
import BlockTemplates.Proofs.Rendering.Resolution
import BlockTemplates.Proofs.Rendering.Recursion
import BlockTemplates.Proofs.Rendering.Expansion
import BlockTemplates.Proofs.Assumptions
import BlockTemplates.Proofs.Layout.Gaps
import BlockTemplates.Proofs.Layout.Words
import BlockTemplates.Proofs.Layout.Attributes
import BlockTemplates.Proofs.Layout.Heads
import BlockTemplates.Proofs.Layout.Contents
import BlockTemplates.Proofs.Layout.Documents
import BlockTemplates.Proofs.Layout.Parsed
import BlockTemplates.Proofs.Rendering.Language
import BlockTemplates.Proofs.Rendering.Nesting
import BlockTemplates.Proofs.Reading.Occurrences
import BlockTemplates.Proofs.Reading.Inheritance
import BlockTemplates.Proofs.Rendering.Overriding
import BlockTemplates.Proofs.Rendering.Unused
import BlockTemplates.Proofs.Compiling.SuperTargets
import BlockTemplates.Proofs.Rendering.Commuting
import BlockTemplates.Proofs.Reading.Blank
import BlockTemplates.Proofs.Rendering.Outline
import BlockTemplates.Proofs.Compiling.Sections
import BlockTemplates.Proofs.Rendering.TagSequence
import BlockTemplates.Proofs.Rendering.Structure
import BlockTemplates.Proofs.Compiling.Rules
import BlockTemplates.Proofs.Rendering.ClassTokens
import BlockTemplates.Proofs.Markup.Json
import BlockTemplates.Proofs.Rendering.TagNames
import BlockTemplates.Proofs.Markup.Places
import BlockTemplates.Proofs.Compiling.HelperDepth
import BlockTemplates.Proofs.Rendering.MergedAttributes
import BlockTemplates.Proofs.Reading.PlainContent
import BlockTemplates.Proofs.Reading.Inlining
import BlockTemplates.Proofs.Compiling.PlainVerdicts
import BlockTemplates.Proofs.Rendering.InPlace
import BlockTemplates.Proofs.Rendering.PrivateNames
import BlockTemplates.Proofs.Rendering.EmptyContents
import BlockTemplates.Proofs.Rendering.Transparency
import BlockTemplates.Proofs.Layout.Literals
import BlockTemplates.Proofs.Faults.Meaning
import BlockTemplates.Proofs.Faults.Positions
import BlockTemplates.Proofs.Cursor.Inside
import BlockTemplates.Proofs.Cursor.LongestMatch
import BlockTemplates.Proofs.Layout.Sequence
import BlockTemplates.Proofs.Compiling.Warnings
import BlockTemplates.Proofs.CommandLine
import BlockTemplates.Proofs.Html.Escaping
import BlockTemplates.Proofs.Text.NormalForm
import BlockTemplates.Proofs.AttributeSlots
import BlockTemplates.Proofs.Rendering.Buffers
