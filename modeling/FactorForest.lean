import FactorForest.Checkpoint
import FactorForest.Command.Run
import FactorForest.Graph.Clique
import FactorForest.Graph.Growth
import FactorForest.Grid
import FactorForest.Main
import FactorForest.Model.Text
import FactorForest.Proofs.Archive.Items
import FactorForest.Proofs.Archive.Range
import FactorForest.Proofs.Assignment
import FactorForest.Proofs.BidOrder
import FactorForest.Proofs.Calls
import FactorForest.Proofs.Checkpoint.Candidacy
import FactorForest.Proofs.Checkpoint.Coloring
import FactorForest.Proofs.Checkpoint.Consistency
import FactorForest.Proofs.Checkpoint.Delimited
import FactorForest.Proofs.Checkpoint.Faults
import FactorForest.Proofs.Checkpoint.Fresh
import FactorForest.Proofs.Checkpoint.RoundTrip
import FactorForest.Proofs.Checkpoint.Stable
import FactorForest.Proofs.Checkpoint.Unfinished
import FactorForest.Proofs.Command.Export
import FactorForest.Proofs.Graph.BidOrder
import FactorForest.Proofs.Graph.BreadthFirst
import FactorForest.Proofs.Graph.Declared
import FactorForest.Proofs.Graph.EdgeStore
import FactorForest.Proofs.Graph.Forest
import FactorForest.Proofs.Graph.Recoloring
import FactorForest.Proofs.Graph.Reset
import FactorForest.Proofs.Grid.Graph
import FactorForest.Proofs.Index
import FactorForest.Proofs.Lifecycle
import FactorForest.Proofs.Model.Acceptance
import FactorForest.Proofs.Model.Consistency
import FactorForest.Proofs.Model.Files
import FactorForest.Proofs.Model.Incidence
import FactorForest.Proofs.Model.Located
import FactorForest.Proofs.Model.Placement
import FactorForest.Proofs.Model.Refusals
import FactorForest.Proofs.Text.Utf8
import FactorForest.Proofs.Union
import FactorForest.Proofs.Writes
import FactorForest.Report
import FactorForest.Settings
