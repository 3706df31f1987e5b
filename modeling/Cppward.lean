import Cppward.Build.FileName
import Cppward.Compile
import Cppward.Indented.Read
import Cppward.Indented.Sample
import Cppward.Main
import Cppward.Proofs.Analysis.Classes
import Cppward.Proofs.Analysis.Following
import Cppward.Proofs.Analysis.LastUse
import Cppward.Proofs.Analysis.NamedArguments
import Cppward.Proofs.Analysis.Parentheses
import Cppward.Proofs.Analysis.Retaining
import Cppward.Proofs.Build.Caching
import Cppward.Proofs.Emit.Capturing
import Cppward.Proofs.Emit.Grouping
import Cppward.Proofs.Emit.Parens
import Cppward.Proofs.Emit.Qualified
import Cppward.Proofs.Emit.Returning
import Cppward.Proofs.Emit.Specifier
import Cppward.Proofs.Indented.Keeping
import Cppward.Proofs.Layout.Idle
import Cppward.Proofs.Layout.Quoting
import Cppward.Proofs.Macro.Expansion
import Cppward.Proofs.Macro.Runs
import Cppward.Proofs.Macro.Scopes
import Cppward.Proofs.Node.Copying
import Cppward.Proofs.Source.Term.Program
