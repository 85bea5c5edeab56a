import PinRing.Main
import PinRing.Proofs.Placement.MirrorCompletion
import PinRing.Proofs.Placement.Optimal
import PinRing.Proofs.Placement.Preplaced
import PinRing.Proofs.Placement.ReservationRun
import PinRing.Proofs.Placement.Review
import PinRing.Proofs.Placement.Slots
import PinRing.Proofs.Placement.Journal
import PinRing.Proofs.Placement.Capacity
import PinRing.Proofs.Number.Fraction
import PinRing.Proofs.Placement.WithinCapacity
import PinRing.Proofs.Board.Agree
import PinRing.Proofs.Placement.Lanes
import PinRing.Proofs.Placement.Local
import PinRing.Proofs.Placement.Interleaving
import PinRing.Proofs.File.Replay
import PinRing.Proofs.Placement.Recheck
import PinRing.Proofs.CommandLine.Check
import PinRing.Proofs.Placement.InOrder
import PinRing.Proofs.CommandLine.Obstacles
import PinRing.Proofs.Placement.Hazards
import PinRing.Proofs.Placement.Session
import PinRing.Proofs.Placement.TranslatedRun
import PinRing.Proofs.Placement.TwoPhase
import PinRing.Proofs.Placement.GroupBlocks
import PinRing.Proofs.Placement.LastResort
import PinRing.Proofs.Board.History
import PinRing.Proofs.Placement.Partition
import PinRing.Proofs.Placement.Allotment
import PinRing.Proofs.Assignment.Rescaling
import PinRing.Proofs.Placement.Repetition
import PinRing.Proofs.File.Definition
import PinRing.Proofs.Placement.Bill
import PinRing.Proofs.Assignment.Rounds
import PinRing.Proofs.Assignment.Ties
