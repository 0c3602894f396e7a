import MacroAsm.Main
import MacroAsm.Op.Printer
import MacroAsm.Program.Printer
import MacroAsm.Proofs.Code
import MacroAsm.Proofs.Resolve
import MacroAsm.Proofs.Unfold
import MacroAsm.Proofs.LabelScope
import MacroAsm.Proofs.Faults
import MacroAsm.Proofs.Placeholders
import MacroAsm.Proofs.Linking
import MacroAsm.Proofs.Relocation
import MacroAsm.Proofs.Growth
import MacroAsm.Proofs.Flatten
import MacroAsm.Proofs.Refinement
import MacroAsm.Proofs.ProgramNames
import MacroAsm.Proofs.Cycles
import MacroAsm.Proofs.Attribution
import MacroAsm.Proofs.CodeSize
import MacroAsm.Proofs.History
import MacroAsm.Proofs.Brackets
import MacroAsm.Proofs.Readings
import MacroAsm.Proofs.Readable
import MacroAsm.Proofs.Bytes
import MacroAsm.Proofs.RoundTrip
import MacroAsm.Proofs.Literals
import MacroAsm.Proofs.Failures
import MacroAsm.Proofs.Decoding
import MacroAsm.Proofs.TableLayout
import MacroAsm.Proofs.DepthLimit
import MacroAsm.Proofs.Grammar
import MacroAsm.Proofs.Evaluation
import MacroAsm.Proofs.Concatenation
import MacroAsm.Proofs.Termination
import MacroAsm.Proofs.Blanking
import MacroAsm.Proofs.Inclusions
import MacroAsm.Proofs.Bare
import MacroAsm.Proofs.Places
import MacroAsm.Proofs.Declarations
import MacroAsm.Proofs.Substitution
import MacroAsm.Proofs.Constants
import MacroAsm.Proofs.Unmatched
import MacroAsm.Proofs.OwnLabels
import MacroAsm.Proofs.Composition
import MacroAsm.Proofs.Origins
import MacroAsm.Proofs.Tokens
import MacroAsm.Proofs.Numerals
import MacroAsm.Proofs.StackOffsets
import MacroAsm.Proofs.Patching
import MacroAsm.Proofs.Precedence
import MacroAsm.Proofs.Matching
import MacroAsm.Proofs.Boundaries
import MacroAsm.Proofs.HexText
import MacroAsm.Proofs.Scans
import MacroAsm.Proofs.Scanning
import MacroAsm.Proofs.Slices
