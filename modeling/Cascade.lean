import Cascade.FileSystem.Memory
import Cascade.Main
import Cascade.Proofs.Assembly
import Cascade.Proofs.AtRules
import Cascade.Proofs.Braces
import Cascade.Proofs.Brackets
import Cascade.Proofs.Calls
import Cascade.Proofs.Capture
import Cascade.Proofs.Causes
import Cascade.Proofs.Closure
import Cascade.Proofs.Comments
import Cascade.Proofs.Comparisons
import Cascade.Proofs.Depth
import Cascade.Proofs.Divisions
import Cascade.Proofs.Forest
import Cascade.Proofs.Grammar
import Cascade.Proofs.Idempotence
import Cascade.Proofs.ImportCycles
import Cascade.Proofs.Keeping
import Cascade.Proofs.Lightening
import Cascade.Proofs.Moving
import Cascade.Proofs.NumberWords
import Cascade.Proofs.Origins
import Cascade.Proofs.Passing
import Cascade.Proofs.PassingThrough
import Cascade.Proofs.PlainSheets
import Cascade.Proofs.ReadingBack
import Cascade.Proofs.Regrouping
import Cascade.Proofs.Respelling
import Cascade.Proofs.ResultUnits
import Cascade.Proofs.Run
import Cascade.Proofs.Safety
import Cascade.Proofs.Scopes
import Cascade.Proofs.Scoping
import Cascade.Proofs.Selectors
import Cascade.Proofs.SharedUnits
import Cascade.Proofs.Signatures
import Cascade.Proofs.Splitting
import Cascade.Proofs.TopLevel
import Cascade.Proofs.Warnings
import Cascade.Proofs.WellFormed
