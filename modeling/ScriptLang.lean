import ScriptLang.Text.Blank
import ScriptLang.Number.Whole
import ScriptLang.Number.Literal
import ScriptLang.Report
import ScriptLang.Syntax.Grammar
import ScriptLang.Syntax.Json
import ScriptLang.Value.Text
import ScriptLang.Operator
import ScriptLang.Scope
import ScriptLang.Builtin
import ScriptLang.Eval
import ScriptLang.Main
import ScriptLang.Proofs.StrictMode
import ScriptLang.Proofs.Scope.Path
import ScriptLang.Proofs.Isolation
import ScriptLang.Proofs.Syntax.ReadBack
import ScriptLang.Proofs.Console.Complete
import ScriptLang.Proofs.Run
import ScriptLang.Proofs.Scope.Lookup
import ScriptLang.Proofs.MemberAssignment
import ScriptLang.Proofs.Syntax.Names
import ScriptLang.Proofs.Program
import ScriptLang.Proofs.ProgramResult
import ScriptLang.Proofs.ErrorPlace
import ScriptLang.Proofs.Session
import ScriptLang.Proofs.Display
import ScriptLang.Proofs.Token.Tiling
import ScriptLang.Proofs.Flow
import ScriptLang.Proofs.WellFormed
import ScriptLang.Proofs.Console.Loop
import ScriptLang.Proofs.Joined
import ScriptLang.Proofs.FrontEnd
import ScriptLang.Proofs.Declaration
import ScriptLang.Proofs.Scope.Sees
import ScriptLang.Proofs.Counter
import ScriptLang.Proofs.Instance
import ScriptLang.Proofs.MemberWrite
import ScriptLang.Proofs.Point
import ScriptLang.Proofs.NameFault
import ScriptLang.Proofs.Resolution
import ScriptLang.Proofs.Scope.Owner
import ScriptLang.Proofs.ElementPosition
import ScriptLang.Proofs.Move
import ScriptLang.Proofs.Invariant.Upholds
import ScriptLang.Proofs.Invariant.Rules
import ScriptLang.Proofs.LexicalCall
import ScriptLang.Proofs.Heap
import ScriptLang.Proofs.Equality
import ScriptLang.Proofs.Token.Recut
import ScriptLang.Proofs.Token.Fault
import ScriptLang.Proofs.Report
import ScriptLang.Proofs.Token.Layout
import ScriptLang.Proofs.Syntax.Lookahead
import ScriptLang.Proofs.Places
import ScriptLang.Proofs.Syntax.Taken
import ScriptLang.Proofs.Shorthand
import ScriptLang.Proofs.Syntax.Found
import ScriptLang.Proofs.Token.Order
import ScriptLang.Proofs.SourceOrder
