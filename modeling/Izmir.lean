import Izmir.Command
import Izmir.Main
import Izmir.Proofs.Calls
import Izmir.Proofs.Configurations
import Izmir.Proofs.Fuel
import Izmir.Proofs.LinkCorrectness
import Izmir.Proofs.ListingRoundTrip
import Izmir.Proofs.ParserCompleteness
import Izmir.Proofs.ProcedureOrder
import Izmir.Proofs.ProgramTexts
import Izmir.Proofs.ScannerlessCompleteness
import Izmir.Proofs.Replay
import Izmir.Proofs.StackDiscipline
import Izmir.Proofs.Applications
import Izmir.Proofs.Allocation
import Izmir.Proofs.LinkErrors
import Izmir.Proofs.Binders
import Izmir.Proofs.Folding
import Izmir.Proofs.Frames
import Izmir.Proofs.Termination
import Izmir.Proofs.LineErrors
import Izmir.Proofs.Layout
import Izmir.Proofs.Inputs
import Izmir.Proofs.PrintedValues
import Izmir.Proofs.Effects
import Izmir.Proofs.SourceNames
import Izmir.Proofs.Comparisons
import Izmir.Proofs.FrameCounts
import Izmir.Proofs.FrameSizes
