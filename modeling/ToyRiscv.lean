import ToyRiscv.Encoding
import ToyRiscv.EmissionRefinement
import ToyRiscv.AsmReading
import ToyRiscv.LoweredBlock
import ToyRiscv.FunctionCall
import ToyRiscv.FrameIndex
import ToyRiscv.SelectPass
import ToyRiscv.SelectDebug
import ToyRiscv.GlobalAddress
import ToyRiscv.Rv64
import ToyRiscv.Subtarget
import ToyRiscv.TlsFixups
import ToyRiscv.PCRelFixup
