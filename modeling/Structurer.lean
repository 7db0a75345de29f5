import Structurer.Main
import Structurer.Proofs.Arena
import Structurer.Proofs.Settled
import Structurer.Proofs.Detaching
import Structurer.Proofs.Shape
import Structurer.Proofs.Records
import Structurer.Proofs.Ladders
import Structurer.Proofs.LargestStart
import Structurer.Proofs.Separators
import Structurer.Proofs.Carving
import Structurer.Proofs.Parking
import Structurer.Proofs.Duplicates
import Structurer.Proofs.Inertness
import Structurer.Proofs.Grammar
import Structurer.Proofs.Sources
import Structurer.Proofs.Ancestors
import Structurer.Proofs.Negation
import Structurer.Proofs.Registry
import Structurer.Proofs.Erasure
