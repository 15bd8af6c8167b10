import PathAlias.Session
import PathAlias.Text.Utf8.RoundTrip
import PathAlias.Proofs.Path.Route
import PathAlias.Proofs.Project.Destination
import PathAlias.Proofs.Reference.Occurrence
import PathAlias.Proofs.Reference.Replacement
import PathAlias.Proofs.Project.LineByLine
import PathAlias.Proofs.Project.Report
import PathAlias.Proofs.Project.FixedPoint
import PathAlias.Proofs.Project.Places
import PathAlias.Proofs.Project.Explicit
import PathAlias.Proofs.Path.Excursion
import PathAlias.Proofs.Project.Relocation
import PathAlias.Proofs.Json.RoundTrip
import PathAlias.Proofs.Configuration.RoundTrip
import PathAlias.Proofs.Configuration.Routes
import PathAlias.Proofs.Configuration.Builder
import PathAlias.Proofs.Project.Containment
import PathAlias.Proofs.Mapping.Aliases
import PathAlias.Proofs.Project.Precedence
import PathAlias.Proofs.Project.BaseUrl
import PathAlias.Proofs.Reference.Offsets
import PathAlias.Proofs.Mapping.Clashes
import PathAlias.Proofs.Reference.Literal
import PathAlias.Proofs.Project.Outcome
import PathAlias.Proofs.Configuration.Additions
import PathAlias.Proofs.Project.Fit
import PathAlias.Proofs.Project.Effects
import PathAlias.Proofs.Project.RelativeDirectory
import PathAlias.Proofs.Path.NormalForm
import PathAlias.Proofs.Path.Shortest
import PathAlias.Proofs.Session
