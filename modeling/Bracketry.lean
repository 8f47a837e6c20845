import Bracketry.Main
import Bracketry.Proofs.Discipline.Growth
import Bracketry.Proofs.Expr.Constants
import Bracketry.Proofs.Expr.ShortCircuit
import Bracketry.Proofs.Inspector.Navigation
import Bracketry.Proofs.Inspector.Scrolling
import Bracketry.Proofs.Program.Allocation
import Bracketry.Proofs.Program.Counting
import Bracketry.Proofs.Program.Lexical
import Bracketry.Proofs.Program.Pacing
import Bracketry.Proofs.Token.Words
import Bracketry.Proofs.Ty.Dimensions
import Bracketry.Proofs.Ty.Layout
