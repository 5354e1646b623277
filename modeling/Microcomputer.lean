import Microcomputer.Text.Blank
import Microcomputer.Text.Numeral
import Microcomputer.Alu.Byte
import Microcomputer.Control.Word
import Microcomputer.Files
import Microcomputer.Listing.Reader
import Microcomputer.Instruction.Assembly
import Microcomputer.Control.Store
import Microcomputer.Microcode.Annotation
import Microcomputer.Machine.Display
import Microcomputer.Main
import Microcomputer.Proofs.Instruction.Decoding
import Microcomputer.Proofs.Microcode.Compilation
import Microcomputer.Proofs.Machine.Length
import Microcomputer.Proofs.Machine.Branch
import Microcomputer.Proofs.Machine.Calls
import Microcomputer.Proofs.Machine.Frames
import Microcomputer.Proofs.Alu.Chain
import Microcomputer.Proofs.Machine.Scratch
import Microcomputer.Proofs.Microcode.Order
import Microcomputer.Proofs.Machine.Bounds
import Microcomputer.Proofs.Machine.Banks
import Microcomputer.Proofs.Machine.Movement
import Microcomputer.Proofs.Machine.PairArithmetic
import Microcomputer.Proofs.Machine.History
import Microcomputer.Proofs.Machine.Confinement
import Microcomputer.Proofs.Machine.Memory
import Microcomputer.Proofs.Machine.Input
import Microcomputer.Proofs.Machine.Stopping
import Microcomputer.Proofs.Machine.PushPop
import Microcomputer.Proofs.Microcode.LifeCycle
import Microcomputer.Proofs.Machine.Loops
import Microcomputer.Proofs.Text.Blank
import Microcomputer.Proofs.Text.Numeral
import Microcomputer.Proofs.Text.Encoding
import Microcomputer.Proofs.Listing.Folding
import Microcomputer.Proofs.Listing.Canonical
import Microcomputer.Proofs.Listing.RoundTrip
import Microcomputer.Proofs.Listing.Grammar
import Microcomputer.Proofs.Microcode.Annotation
import Microcomputer.Proofs.Microcode.Acceptance
import Microcomputer.Proofs.Machine.Bootstrap
import Microcomputer.Proofs.Machine.Space
import Microcomputer.Proofs.Machine.FrameCells
import Microcomputer.Proofs.Machine.Halting
import Microcomputer.Proofs.Instruction.Assembling
import Microcomputer.Proofs.Control.Images
import Microcomputer.Proofs.Files
