import TraceFold.Action.Basic
import TraceFold.Action.Text
import TraceFold.CommandLine.Invocation
import TraceFold.CommandLine.Report
import TraceFold.CommandLine.Run
import TraceFold.Dag
import TraceFold.Edge
import TraceFold.Fold
import TraceFold.Folding.Basic
import TraceFold.Folding.Descent
import TraceFold.Folding.Toggle
import TraceFold.Highlight
import TraceFold.Id.Basic
import TraceFold.Id.Json
import TraceFold.Id.Text
import TraceFold.Json.Basic
import TraceFold.Json.Printer
import TraceFold.Json.Reader
import TraceFold.Json.Record
import TraceFold.Json.Token
import TraceFold.LargestPath
import TraceFold.LookupError
import TraceFold.Main
import TraceFold.Number.Binary64
import TraceFold.Number.Decimal
import TraceFold.Number.FixedPlaces
import TraceFold.Picture.Basic
import TraceFold.Picture.Project
import TraceFold.Pipeline.Basic
import TraceFold.Pipeline.Check
import TraceFold.Pipeline.Codec
import TraceFold.Pipeline.Fault
import TraceFold.Pipeline.Graph
import TraceFold.Pipeline.Stream
import TraceFold.Pipeline.Warning
import TraceFold.Scene
import TraceFold.Settings.Basic
import TraceFold.Settings.Error
import TraceFold.Settings.Yaml
import TraceFold.Text.Blank
import TraceFold.Text.Decimal
import TraceFold.Trace.Basic
import TraceFold.Trace.Ends
import TraceFold.Trace.Json
import TraceFold.View.Basic
import TraceFold.View.Json
import TraceFold.View.Project
import TraceFold.Yaml.Cursor
import TraceFold.Yaml.Lexer
import TraceFold.Yaml.Node
import TraceFold.Yaml.Scalar
import TraceFold.Yaml.Token
import TraceFold.Proofs.Dag.Frontier
import TraceFold.Proofs.Dag.Order
import TraceFold.Proofs.Dag.Guarded
import TraceFold.Proofs.Dag.Cycle
import TraceFold.Proofs.Trace.Checked
import TraceFold.Proofs.Pipeline.Lawful
import TraceFold.Proofs.Scene.Build
import TraceFold.Proofs.Lists
import TraceFold.Proofs.Picture.Pick
import TraceFold.Proofs.Picture.Projection
import TraceFold.Proofs.Folding.Moves
import TraceFold.Proofs.Folding.Walk
import TraceFold.Proofs.Folding.Reachable
import TraceFold.Proofs.Folding.Effect
import TraceFold.Proofs.Folding.NoDeadEnd
import TraceFold.Proofs.Folding.Undo
import TraceFold.Proofs.Picture.Order
import TraceFold.Proofs.Picture.Nodes
import TraceFold.Proofs.Number.FixedPlaces
import TraceFold.Proofs.Picture.Arena
import TraceFold.Proofs.Scene.NormalForm
import TraceFold.Proofs.Folding.Width
import TraceFold.Proofs.Folding.Standard
import TraceFold.Proofs.Folding.Step
import TraceFold.Proofs.Folding.GraphEffect
import TraceFold.Proofs.Folding.HideAll
import TraceFold.Proofs.Folding.Sealed
import TraceFold.Proofs.Folding.Focus
import TraceFold.Proofs.Folding.DepthFirst
import TraceFold.Proofs.Folding.Toggle
import TraceFold.Proofs.Folding.RoundTrip
import TraceFold.Proofs.Folding.Commute
import TraceFold.Proofs.Folding.Anchored
import TraceFold.Proofs.Id.Text
import TraceFold.Proofs.View.Coherent
import TraceFold.Proofs.View.Dangling
import TraceFold.Proofs.Folding.Startup
import TraceFold.Proofs.Action.Session
import TraceFold.Proofs.Picture.Highlight
import TraceFold.Proofs.Picture.Coalesce
import TraceFold.Proofs.Scene.Refusal
import TraceFold.Proofs.Folding.Search
import TraceFold.Proofs.Folding.Level
import TraceFold.Proofs.Scene.LargestPath
import TraceFold.Proofs.Id.Spelling
import TraceFold.Proofs.Action.Text
import TraceFold.Proofs.Json.Scan
import TraceFold.Proofs.Json.RoundTrip
import TraceFold.Proofs.Json.Record
import TraceFold.Proofs.Json.Spelling
import TraceFold.Proofs.View.RoundTrip
import TraceFold.Proofs.Trace.RoundTrip
import TraceFold.Proofs.Trace.Spelling
import TraceFold.Proofs.Folding.Regrouped
import TraceFold.Proofs.Action.Regrouped
