import Asm65816.Assembly
import Asm65816.Session
import Asm65816.Proofs.Assembly.Visit
import Asm65816.Proofs.Assembly.Forward
import Asm65816.Proofs.Assembly.References
import Asm65816.Proofs.Assembly.Sizes
import Asm65816.Proofs.Assembly.Repeat
import Asm65816.Proofs.Assembly.Append
import Asm65816.Proofs.Disassembly
import Asm65816.Proofs.Lossless
import Asm65816.Proofs.Unambiguous
import Asm65816.Proofs.Operand.Refusal
import Asm65816.Proofs.Lexeme.Layout
import Asm65816.Proofs.Scan
import Asm65816.Proofs.Session
import Asm65816.Proofs.Tolerance
import Asm65816.Proofs.Pushback
import Asm65816.Proofs.Independence
import Asm65816.Proofs.Resolved
import Asm65816.Proofs.Branch
import Asm65816.Proofs.Operand.Selection
import Asm65816.Proofs.Operand.Incomplete
import Asm65816.Proofs.Forced
import Asm65816.Proofs.BlockMove
import Asm65816.Proofs.Masking
import Asm65816.Proofs.Numeral.Rendering
import Asm65816.Proofs.Operand.Skipping
import Asm65816.Proofs.Folding
