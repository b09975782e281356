import WasmBinary.Main
import WasmBinary.Proofs.Number
import WasmBinary.Proofs.Stream.Edit
import WasmBinary.Proofs.Stream.Register
import WasmBinary.Proofs.Steps
import WasmBinary.Proofs.Component
import WasmBinary.Proofs.Determination
import WasmBinary.Proofs.Relocation
import WasmBinary.Proofs.Nesting
import WasmBinary.Proofs.Layout
import WasmBinary.Proofs.CommandLine
