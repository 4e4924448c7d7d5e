import AbnfPatterns.Abnf.Derivation
import AbnfPatterns.Main
import AbnfPatterns.Regex.Preference
import AbnfPatterns.Workspace
import AbnfPatterns.Proofs.Rule.Spelling
import AbnfPatterns.Proofs.Registry.LongestName
import AbnfPatterns.Proofs.Template.Replacement
import AbnfPatterns.Proofs.Abnf.Language
import AbnfPatterns.Proofs.Regex.Comparison
import AbnfPatterns.Proofs.Regex.Embedding
import AbnfPatterns.Proofs.Regex.ReadBack
import AbnfPatterns.Proofs.Standard.Fragments
import AbnfPatterns.Proofs.Standard.Notation
import AbnfPatterns.Proofs.Composer.Composition
import AbnfPatterns.Proofs.Registry.Layers
import AbnfPatterns.Proofs.Composer.Additions
import AbnfPatterns.Proofs.Template.Writing
import AbnfPatterns.Proofs.Workspace.Runs
import AbnfPatterns.Proofs.CommandLine.Spelling
import AbnfPatterns.Proofs.CommandLine.Arrangement
import AbnfPatterns.Proofs.CommandLine.Frontend
import AbnfPatterns.Proofs.CommandLine.Terminal.Spelling
import AbnfPatterns.Proofs.CommandLine.Terminal.Reading
import AbnfPatterns.Proofs.CommandLine.Serving
import AbnfPatterns.Proofs.Template.Spelling
import AbnfPatterns.Proofs.Template.Unresolved
import AbnfPatterns.Proofs.Template.Extension
import AbnfPatterns.Proofs.Template.Pieces
import AbnfPatterns.Proofs.Workspace.Events
import AbnfPatterns.Proofs.Regex.Builders
import AbnfPatterns.Proofs.Regex.Preference
import AbnfPatterns.Proofs.Uri.Digits
import AbnfPatterns.Proofs.Uri.Address
import AbnfPatterns.Proofs.Uri.LongestAddress
import AbnfPatterns.Proofs.Uri.PercentEncoding
import AbnfPatterns.Proofs.Uri.Marks
import AbnfPatterns.Proofs.Uri.Parts
import AbnfPatterns.Proofs.Http.Characters
import AbnfPatterns.Proofs.Http.Comment
import AbnfPatterns.Proofs.Http.FieldValue
import AbnfPatterns.Proofs.Registry.Discovery
import AbnfPatterns.Proofs.Regex.Spacing
import AbnfPatterns.Proofs.Template.Collapse
import AbnfPatterns.Proofs.Regex.Alternation
import AbnfPatterns.Proofs.Composer.Repetition
import AbnfPatterns.Proofs.Standard.Names
import AbnfPatterns.Proofs.CharSet.Pieces
