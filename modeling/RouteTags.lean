import RouteTags.Changes
import RouteTags.Main
import RouteTags.Proofs.Tag.Occurrence
import RouteTags.Proofs.Tree.Nodes
import RouteTags.Proofs.Tree.Placement
import RouteTags.Proofs.Route.Order
import RouteTags.Proofs.Tree.Labels
import RouteTags.Proofs.Path.Components
import RouteTags.Proofs.Text.Trim
import RouteTags.Proofs.Locator.Stages
import RouteTags.Proofs.Locator.RoundTrip
import RouteTags.Proofs.Locator.Stable
import RouteTags.Proofs.Session.Interleaving
import RouteTags.Proofs.CrossReference.FirstWins
import RouteTags.Proofs.Session.Views
import RouteTags.Proofs.Files.Replace
import RouteTags.Proofs.Scan.Marks
import RouteTags.Proofs.Path.Locations
import RouteTags.Proofs.Scan.Canonical
import RouteTags.Proofs.Links.Landing
import RouteTags.Proofs.Tree.Shape
import RouteTags.Proofs.Tree.Outline
import RouteTags.Proofs.Tree.Representation
import RouteTags.Proofs.Tree.Canonical
import RouteTags.Proofs.Glob.Language
import RouteTags.Proofs.Glob.Reading
import RouteTags.Proofs.Text.Encoding
import RouteTags.Proofs.Glob.Accepted
import RouteTags.Proofs.Path.Below
import RouteTags.Proofs.Selection.Patterns
import RouteTags.Proofs.Selection.Rules
import RouteTags.Proofs.Files.Paths
import RouteTags.Proofs.Session.Filter
import RouteTags.Proofs.Files.Absolute
import RouteTags.Proofs.Locator.Spellings
import RouteTags.Proofs.Route.Normal
import RouteTags.Proofs.Tag.Alone
import RouteTags.Proofs.Tag.Template
import RouteTags.Proofs.Coverage.Agreement
import RouteTags.Proofs.Path.Join
import RouteTags.Proofs.Locator.Schemes
import RouteTags.Proofs.Selection.Excluded
import RouteTags.Proofs.Session.Changes
import RouteTags.Proofs.Json.Records
import RouteTags.Proofs.Config.Saved
import RouteTags.Proofs.Config.Loaded
import RouteTags.Proofs.Coverage.CallSites
import RouteTags.Proofs.Coverage.Search
import RouteTags.Proofs.Links.Cache
import RouteTags.Proofs.Tag.Joined
import RouteTags.Proofs.Locator.Outcomes
import RouteTags.Proofs.CrossReference.Lookup
import RouteTags.Proofs.Glob.Escapes
import RouteTags.Proofs.Selection.Entries
import RouteTags.Proofs.Coverage.Excluding
import RouteTags.Proofs.Config.Texts
import RouteTags.Proofs.Config.Written
import RouteTags.Proofs.Tree.Paths
import RouteTags.Proofs.Text.Tally
import RouteTags.Proofs.Command.ShownLines
