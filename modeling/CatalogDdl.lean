import CatalogDdl.Main
import CatalogDdl.Proofs.Catalog.Printed
import CatalogDdl.Proofs.Dump.Policy
import CatalogDdl.Proofs.Script.Interleaved
import CatalogDdl.Proofs.Script.Order
import CatalogDdl.Proofs.Script.Drops
import CatalogDdl.Proofs.Script.Counts
import CatalogDdl.Proofs.ResultSet.Body
import CatalogDdl.Proofs.Dump.Layout
import CatalogDdl.Proofs.Catalog.Decoded
import CatalogDdl.Proofs.Dump.Listed
import CatalogDdl.Proofs.Dump.Routine
import CatalogDdl.Proofs.Script.Quoted
import CatalogDdl.Proofs.Script.Line
import CatalogDdl.Proofs.Script.Batch
import CatalogDdl.Proofs.Dump.Batch
import CatalogDdl.Proofs.Command.Rerun
import CatalogDdl.Proofs.Schema.Ordinal
import CatalogDdl.Proofs.Schema.Referenced
import CatalogDdl.Proofs.Script.Reason
import CatalogDdl.Proofs.Schema.Agree
import CatalogDdl.Proofs.Script.Sound
import CatalogDdl.Proofs.Schema.PrimaryKey
import CatalogDdl.Proofs.Schema.ForeignKey
import CatalogDdl.Proofs.Schema.Index
import CatalogDdl.Proofs.Script.Guard
import CatalogDdl.Proofs.Script.ReadBack
import CatalogDdl.Proofs.Catalog.LastDefinition
import CatalogDdl.Proofs.ResultSet.Kept
import CatalogDdl.Proofs.ResultSet.Recognized
import CatalogDdl.Proofs.ResultSet.FieldCount
import CatalogDdl.Proofs.Catalog.Number
import CatalogDdl.Proofs.Dump.Encoding
import CatalogDdl.Proofs.ResultSet.Row
import CatalogDdl.Proofs.Script.DataType
import CatalogDdl.Proofs.Script.RoutineScript
import CatalogDdl.Proofs.Schema.Queue
import CatalogDdl.Proofs.Schema.Filing
import CatalogDdl.Proofs.Script.Pass
