import ExtendedBnf.Main
import ExtendedBnf.Proofs.AtomicMarks
import ExtendedBnf.Proofs.BlockNames
import ExtendedBnf.Proofs.ConversionFaults
import ExtendedBnf.Proofs.FaultPlaces
import ExtendedBnf.Proofs.Fragments
import ExtendedBnf.Proofs.Groups
import ExtendedBnf.Proofs.JoinedSources
import ExtendedBnf.Proofs.ListOutcomes
import ExtendedBnf.Proofs.LiteralPlaces
import ExtendedBnf.Proofs.LiteralValue
import ExtendedBnf.Proofs.LoweringSpans
import ExtendedBnf.Proofs.NodeNaming
import ExtendedBnf.Proofs.NormalTrees
import ExtendedBnf.Proofs.ParenMatching
import ExtendedBnf.Proofs.PlusOutcomes
import ExtendedBnf.Proofs.PositionOrder
import ExtendedBnf.Proofs.Relayout
import ExtendedBnf.Proofs.SourceByIndex
import ExtendedBnf.Proofs.TargetRoundTrip
import ExtendedBnf.Proofs.WrittenGroups
