import PropertyGraph.Chain.Builder
import PropertyGraph.Dataset
import PropertyGraph.Main
import PropertyGraph.Session
import PropertyGraph.Proofs.Cascade
import PropertyGraph.Proofs.DropOrder
import PropertyGraph.Proofs.DroppingQuery
import PropertyGraph.Proofs.EagerLists
import PropertyGraph.Proofs.EdgeEnds
import PropertyGraph.Proofs.Ending
import PropertyGraph.Proofs.GraphKeys
import PropertyGraph.Proofs.GrowingRules
import PropertyGraph.Proofs.KeptTypes
import PropertyGraph.Proofs.KeyFamilies
import PropertyGraph.Proofs.KeyPatterns
import PropertyGraph.Proofs.Leftovers
import PropertyGraph.Proofs.LimitStops
import PropertyGraph.Proofs.LoadedDataset
import PropertyGraph.Proofs.MarkerScan
import PropertyGraph.Proofs.ParentByParent
import PropertyGraph.Proofs.Pruning
import PropertyGraph.Proofs.QueryText
import PropertyGraph.Proofs.Refusals
import PropertyGraph.Proofs.Rewriting
import PropertyGraph.Proofs.ScalarEquality
import PropertyGraph.Proofs.ScanBounds
import PropertyGraph.Proofs.ScanHistory
import PropertyGraph.Proofs.Sweeping
import PropertyGraph.Proofs.TornVertices
import PropertyGraph.Proofs.TypeSoundness
