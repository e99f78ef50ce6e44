import BisayaPlus.Main
import BisayaPlus.Proofs.Printing
import BisayaPlus.Proofs.FiniteNumbers
import BisayaPlus.Proofs.Rendering
import BisayaPlus.Proofs.Locations
import BisayaPlus.Proofs.Truncation
import BisayaPlus.Proofs.CursorBounds
import BisayaPlus.Proofs.Comparison
import BisayaPlus.Proofs.ShownInput
import BisayaPlus.Proofs.Cascade
import BisayaPlus.Proofs.Counting
import BisayaPlus.Proofs.UnreachedFaults
import BisayaPlus.Proofs.Labels
import BisayaPlus.Proofs.InitialValues
import BisayaPlus.Proofs.TwoWords
