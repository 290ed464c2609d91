import QuantityLayout.Registry.Query
import QuantityLayout.Registry.Run
import QuantityLayout.Storage
import QuantityLayout.Valuation.Snapshot
import QuantityLayout.Valuation.Run
import QuantityLayout.Valuation.InPlace
import QuantityLayout.Proofs.Matrix
import QuantityLayout.Proofs.Entries
import QuantityLayout.Proofs.Order.Merge
import QuantityLayout.Proofs.Order.Units
import QuantityLayout.Proofs.Order.Placement
import QuantityLayout.Proofs.Order.Renaming
import QuantityLayout.Proofs.Tree.Inventory
import QuantityLayout.Proofs.Tree.Content
import QuantityLayout.Proofs.Tree.Coverage
import QuantityLayout.Order.Fits
import QuantityLayout.Tree.WellOrdered
import QuantityLayout.Proofs.Order.Fits
import QuantityLayout.Proofs.Tree.WellOrdered
import QuantityLayout.Proofs.Tree.Part
import QuantityLayout.Proofs.Layout.Offsets
import QuantityLayout.Proofs.Layout.Segments
import QuantityLayout.Proofs.Registry.Reachable
import QuantityLayout.Proofs.Registry.Freeze
import QuantityLayout.Proofs.Path.RoundTrip
import QuantityLayout.Proofs.Registry.Visits
import QuantityLayout.Proofs.Shape.Cells
import QuantityLayout.Proofs.Shape.Dense
import QuantityLayout.Shape.Basic
import QuantityLayout.Proofs.Tree.Writable
import QuantityLayout.Proofs.Registry.Flatten
import QuantityLayout.Proofs.Registry.Cells
import QuantityLayout.Proofs.Registry.Offsets
import QuantityLayout.Proofs.Registry.Composition
import QuantityLayout.Proofs.Registry.Contiguous
import QuantityLayout.Proofs.Registry.ReverseLookup
import QuantityLayout.Registry.InPlace
import QuantityLayout.Tree.Run
import QuantityLayout.Proofs.Registry.Lifecycle
import QuantityLayout.Proofs.Valuation.Staged
import QuantityLayout.Proofs.Valuation.Effect
import QuantityLayout.Proofs.Valuation.Reachable
import QuantityLayout.Proofs.Valuation.Frame
import QuantityLayout.Proofs.Valuation.Reads
import QuantityLayout.Proofs.Valuation.InPlace
import QuantityLayout.Proofs.Json.Quoted
import QuantityLayout.Proofs.Json.Number
import QuantityLayout.Proofs.Json.Token
import QuantityLayout.Proofs.Json.Value
import QuantityLayout.Proofs.Json.Decode
import QuantityLayout.Proofs.Layout.Json
import QuantityLayout.Layout.Indexed
import QuantityLayout.Proofs.Layout.Indexed
import QuantityLayout.Proofs.Registry.Saving
import QuantityLayout.Proofs.Layout.Tables
import QuantityLayout.Proofs.Valuation.Loading
import QuantityLayout.Proofs.Valuation.RoundTrip
import QuantityLayout.Proofs.Registry.Renaming
import QuantityLayout.Proofs.Order.Extension
import QuantityLayout.Proofs.Registry.Attaching
import QuantityLayout.Proofs.Binary64.Range
import QuantityLayout.Proofs.Json.Range
import QuantityLayout.Proofs.Valuation.Finite
import QuantityLayout.Proofs.Binary64.Round
import QuantityLayout.Proofs.Tree.Run
import QuantityLayout.Path.Grammar
import QuantityLayout.Valuation.Tabled
import QuantityLayout.Proofs.Path.Text
import QuantityLayout.Proofs.Path.Grammar
import QuantityLayout.Proofs.Registry.Tabled
import QuantityLayout.Proofs.Valuation.Tabled
import QuantityLayout.Proofs.Order.Rounds
import QuantityLayout.Proofs.Tree.Interleaving
import QuantityLayout.Proofs.Registry.Totals
import QuantityLayout.Proofs.Registry.Indices
import QuantityLayout.Proofs.Valuation.Sized
import QuantityLayout.Proofs.Order.GapFree
import QuantityLayout.Tree.Completed
import QuantityLayout.Proofs.Order.Completed
import QuantityLayout.Proofs.Registry.Completed
import QuantityLayout.Proofs.Registry.Strictness
import QuantityLayout.Proofs.Order.Defects
import QuantityLayout.Proofs.Registry.Faults
import QuantityLayout.Proofs.Registry.Prefixes
import QuantityLayout.Proofs.Valuation.Vector
import QuantityLayout.Proofs.Valuation.Assignment
import QuantityLayout.Shape.Cell
import QuantityLayout.Proofs.Shape.Canonical
import QuantityLayout.Proofs.Shape.Numbering
import QuantityLayout.Proofs.Shape.Patterns
import QuantityLayout.Proofs.Registry.Elements
import QuantityLayout.Proofs.Valuation.Columns
import QuantityLayout.Proofs.Tree.Descent
import QuantityLayout.Proofs.Registry.Singles
