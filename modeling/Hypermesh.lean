import Hypermesh.Coord
import Hypermesh.Digest
import Hypermesh.Digest.Blake3
import Hypermesh.Digest.Canonical
import Hypermesh.Element
import Hypermesh.Embedding
import Hypermesh.Embedding.Plan
import Hypermesh.Embedding.Search
import Hypermesh.Engine
import Hypermesh.Error
import Hypermesh.Hyperedge
import Hypermesh.Hypergraph
import Hypermesh.Hypergraph.Merge
import Hypermesh.Hypergraph.View
import Hypermesh.InOrder
import Hypermesh.Incidence
import Hypermesh.Label
import Hypermesh.Mesh.Grid
import Hypermesh.Mesh.Polygon
import Hypermesh.Node
import Hypermesh.Novelty
import Hypermesh.Production
import Hypermesh.Region
import Hypermesh.Rules.Breaking
import Hypermesh.Rules.Library
import Hypermesh.Rules.Marking
import Hypermesh.Rules.Outline
import Hypermesh.Rules.Splitting
import Hypermesh.Script
import Hypermesh.Settings
import Hypermesh.Settings.Fields
import Hypermesh.Settings.Text
import Hypermesh.Table
import Hypermesh.Table.Lemmas
import Hypermesh.Trace
import Hypermesh.Proofs.Lists
import Hypermesh.Proofs.Lookup
import Hypermesh.Proofs.Run
import Hypermesh.Proofs.Insertion
import Hypermesh.Proofs.Coherence
import Hypermesh.Proofs.Consistency
import Hypermesh.Proofs.Matching.Plan
import Hypermesh.Proofs.Matching.Feasibility
import Hypermesh.Proofs.Matching.Search
import Hypermesh.Proofs.Matching.Embedding
import Hypermesh.Proofs.Region
import Hypermesh.Proofs.Unambiguous
import Hypermesh.Proofs.WellFormed
import Hypermesh.Proofs.Rewriting
import Hypermesh.Proofs.Completeness
import Hypermesh.Proofs.Selection
import Hypermesh.Proofs.Union
import Hypermesh.Proofs.OrderIndependence
import Hypermesh.Proofs.Merging
import Hypermesh.Proofs.Locality
import Hypermesh.Proofs.Contents
import Hypermesh.Proofs.Depiction
import Hypermesh.Proofs.Termination.Weight
import Hypermesh.Proofs.Termination.Rules
import Hypermesh.Proofs.Library
import Hypermesh.Proofs.Termination
import Hypermesh.Proofs.Canonical
import Hypermesh.Proofs.Persistence
import Hypermesh.Proofs.InducedRegion
import Hypermesh.Proofs.Transcript
import Hypermesh.Proofs.Termination.Budget
import Hypermesh.Proofs.Revising
import Hypermesh.Proofs.Marking
import Hypermesh.Proofs.Everywhere
import Hypermesh.Proofs.Nesting
import Hypermesh.Proofs.Position
import Hypermesh.Proofs.Observation
import Hypermesh.Proofs.Coexistence
import Hypermesh.Proofs.Exchange
import Hypermesh.Proofs.Tidy
import Hypermesh.Proofs.Refining
import Hypermesh.Proofs.Answering
import Hypermesh.Proofs.HandingOn
import Hypermesh.Proofs.Euler
import Hypermesh.Proofs.Covering
import Hypermesh.Proofs.Halving
import Hypermesh.Proofs.Splitting
import Hypermesh.Proofs.Enclosing
import Hypermesh.Proofs.Fanning
import Hypermesh.Proofs.Breaking
import Hypermesh.Proofs.Lineage
import Hypermesh.Proofs.Parts
import Hypermesh.Proofs.Layout
import Hypermesh.Proofs.PentagonMesh
import Hypermesh.Proofs.Stages
import Hypermesh.Proofs.Pentagons
import Hypermesh.Proofs.BoundaryFirst
import Hypermesh.Proofs.Capping
import Hypermesh.Proofs.GridMesh
import Hypermesh.Proofs.MergeLaws
import Hypermesh.Proofs.Numbering
import Hypermesh.Proofs.Undoing
import Hypermesh.Proofs.Midpoints
import Hypermesh.Proofs.Matching.Order
import Hypermesh.Proofs.Matching.Backtracking
import Hypermesh.Proofs.Charts
import Hypermesh.Proofs.PolygonMesh
import Hypermesh.Proofs.Dihedral
import Hypermesh.Proofs.SettingsText
