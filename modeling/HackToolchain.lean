import HackToolchain.Main
import HackToolchain.Proofs.Assembly.Meaning
import HackToolchain.Proofs.Assembly.Resolution
import HackToolchain.Proofs.Assembly.TwoPass
import HackToolchain.Proofs.Assembly.Printing
import HackToolchain.Proofs.Vm.Lines
import HackToolchain.Proofs.Vm.Labels
import HackToolchain.Proofs.Bits
import HackToolchain.Proofs.Machine.Loading
import HackToolchain.Proofs.Machine.Words
import HackToolchain.Proofs.Machine.Execution
import HackToolchain.Proofs.Machine.Instructions
import HackToolchain.Proofs.Vm.Stack
import HackToolchain.Proofs.Vm.Meaning
import HackToolchain.Proofs.Vm.Blocks
import HackToolchain.Proofs.Vm.Steps
import HackToolchain.Proofs.Vm.Placement
import HackToolchain.Proofs.Vm.CallReturn
import HackToolchain.Proofs.Vm.Simulation
import HackToolchain.Proofs.Assembly.Reports
import HackToolchain.Proofs.Assembly.Diagnosis
import HackToolchain.Proofs.Machine.Disassembly
import HackToolchain.Proofs.Descriptor.Accepted
import HackToolchain.Proofs.Assembly.Fields
import HackToolchain.Proofs.Descriptor.Decoding
import HackToolchain.Proofs.Vm.Calls
import HackToolchain.Proofs.Vm.Dialect
import HackToolchain.Proofs.Assembly.Variables
import HackToolchain.Proofs.Vm.Statics
import HackToolchain.Proofs.Vm.Written
import HackToolchain.Proofs.CommandLine.Storage
import HackToolchain.Proofs.CommandLine.Files
import HackToolchain.Proofs.Vm.Numbering
import HackToolchain.Proofs.Vm.Runs
import HackToolchain.Proofs.Descriptor.Encoding
import HackToolchain.Proofs.Machine.Acceptance
import HackToolchain.Proofs.Vm.Comparisons
import HackToolchain.Proofs.Descriptor.WordText
import HackToolchain.Proofs.Assembly.Fates
import HackToolchain.Proofs.Assembly.Replacement
import HackToolchain.Proofs.Assembly.Renaming
import HackToolchain.Proofs.Assembly.Made
import HackToolchain.Proofs.Assembly.TextAndBytes
import HackToolchain.Proofs.Vm.Notes
import HackToolchain.Proofs.Assembly.Listed
import HackToolchain.Proofs.Bits.Strings
import HackToolchain.Proofs.CommandLine.Emulation
import HackToolchain.Proofs.Assembly.Tables
import HackToolchain.Proofs.Machine.Refusals
import HackToolchain.Proofs.Machine.Bounds
