import Derivatives.Main
import Derivatives.Proofs.Cursor.Operation
import Derivatives.Proofs.Descent.Calls
import Derivatives.Proofs.Expr.Division
import Derivatives.Proofs.Expr.Exact
import Derivatives.Proofs.Grammar.Depth
import Derivatives.Proofs.Options.Setting
import Derivatives.Proofs.Respacing.Reading
import Derivatives.Proofs.Session.Json
import Derivatives.Proofs.Session.Limit
import Derivatives.Proofs.StackCode.Height
import Derivatives.Proofs.StackCode.Listing
import Derivatives.Proofs.Store
import Derivatives.Proofs.Terminal
