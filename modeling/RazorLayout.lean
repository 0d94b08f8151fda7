import RazorLayout.Layout.Rule
import RazorLayout.Main
import RazorLayout.Proofs.Code.Matching
import RazorLayout.Proofs.Code.Reindent
import RazorLayout.Proofs.Code.Shown
import RazorLayout.Proofs.CommandLine.Effect
import RazorLayout.Proofs.CommandLine.Nearest
import RazorLayout.Proofs.Layout.AttributeLines
import RazorLayout.Proofs.Layout.Blocks
import RazorLayout.Proofs.Layout.CodeSection
import RazorLayout.Proofs.Layout.Indentation
import RazorLayout.Proofs.Layout.LandmarkLines
import RazorLayout.Proofs.Layout.Nesting
import RazorLayout.Proofs.Layout.Output
import RazorLayout.Proofs.Layout.RoundTrip
import RazorLayout.Proofs.Layout.ShiftedLines
import RazorLayout.Proofs.Settings.Saved
import RazorLayout.Proofs.Source.Slice
import RazorLayout.Proofs.Template.AttributeRoundTrip
import RazorLayout.Proofs.Template.Chains
import RazorLayout.Proofs.Template.Condition
import RazorLayout.Proofs.Template.SelfClosing
import RazorLayout.Proofs.Template.TagBalance
import RazorLayout.Proofs.Source.Scanner
import RazorLayout.Proofs.Source.ClosingTag
import RazorLayout.Proofs.Source.Markup
import RazorLayout.Proofs.Source.Blocks
import RazorLayout.Proofs.Source.Razor
import RazorLayout.Proofs.Source.Content
import RazorLayout.Proofs.Source.Document
