import TacticsDSL.Utils.Prog
import TacticsDSL.Utils.Trie
import TacticsDSL.Utils.Strtod
import TacticsDSL.Utils.StrtodLocal
import TacticsDSL.Utils.StrtodInteger
import TacticsDSL.Utils.StrtodStop
import TacticsDSL.Utils.Binding
import TacticsDSL.Utils.Fuelled
import TacticsDSL.Utils.Reorder
import TacticsDSL.Utils.Decimal
import TacticsDSL.Utils.Supply
import TacticsDSL.Utils.Loops
import TacticsDSL.Utils.Brackets
import TacticsDSL.Utils.Terms
import TacticsDSL.Utils.Triple
import TacticsDSL.Utils.Mirrors
import TacticsDSL.Utils.FirstUse
import TacticsDSL.Token
import TacticsDSL.Lexer
import TacticsDSL.Tree
import TacticsDSL.Syntax
import TacticsDSL.Semantics
import TacticsDSL.Parser
import TacticsDSL.Matchers
import TacticsDSL.MatchersTheorems
import TacticsDSL.PlaceholderTheorems
import TacticsDSL.Grammar
import TacticsDSL.LexerTheorems
import TacticsDSL.Spelling
import TacticsDSL.ScannerTheorems
import TacticsDSL.ConstTheorems
import TacticsDSL.ParserSound
import TacticsDSL.ParserComplete
import TacticsDSL.ParserTheorems
import TacticsDSL.StmtComplete
import TacticsDSL.TacticTheorems
import TacticsDSL.StmtsTheorems
import TacticsDSL.TokenStreamTheorems
import TacticsDSL.ParserTotal
import TacticsDSL.ParserPrefix
import TacticsDSL.ParserParallel
import TacticsDSL.ParserAgree
import TacticsDSL.OverflowTheorems
import TacticsDSL.SameTokens
import TacticsDSL.LayoutTheorems
import TacticsDSL.Emitter.Basic
import TacticsDSL.Emitter.Products
import TacticsDSL.Emitter.Reshape
import TacticsDSL.Emitter.How
import TacticsDSL.Emitter.BasicTheorems
import TacticsDSL.Emitter.ReshapeTheorems
import TacticsDSL.Emitter.OrderingTheorems
import TacticsDSL.Emitter.SingleReshapeTheorems
import TacticsDSL.Emitter.GroupTheorems
import TacticsDSL.Emitter.ReshapeMapTheorems
import TacticsDSL.Emitter.ProductsTheorems
import TacticsDSL.Emitter.MatMulTheorems
import TacticsDSL.Emitter.HowTheorems
import TacticsDSL.Emitter.ConvTheorems
import TacticsDSL.Emitter.DiagnosticTheorems
import TacticsDSL.Emitter.TemporariesTheorems
import TacticsDSL.Emitter.ChainTheorems
import TacticsDSL.Emitter.TransposeTheorems
import TacticsDSL.Emitter.PositionsTheorems
import TacticsDSL.Emitter.WellFormedTheorems
import TacticsDSL.Emitter.RecognitionTheorems
import TacticsDSL.Emitter.MatVecTheorems
import TacticsDSL.Emitter.FactorTheorems
import TacticsDSL.Emitter.Pattern
import TacticsDSL.Emitter.PatternTheorems
import TacticsDSL.Emitter.MeaningTheorems
import TacticsDSL.Emitter.TextTheorems
import TacticsDSL.Emitter.FailureTheorems
import TacticsDSL.Utils.RowMajor
import TacticsDSL.Emitter.Stores
import TacticsDSL.Emitter.StoresTheorems
import TacticsDSL.Emitter.Lowering
import TacticsDSL.Emitter.LoweringTheorems
import TacticsDSL.Emitter.TtgtTheorems
import TacticsDSL.Emitter.EraseTheorems
import TacticsDSL.RelayoutTheorems
import TacticsDSL.Driver
import TacticsDSL.DriverTheorems
import TacticsDSL.UnambiguousTheorems
import TacticsDSL.Utils.Outcome
import TacticsDSL.Utils.Lockstep
import TacticsDSL.Utils.Accepts
import TacticsDSL.Utils.Emplace
import TacticsDSL.SourceRange
import TacticsDSL.ParserBuilds
import TacticsDSL.ParserRanges
import TacticsDSL.FunctionSyntax
import TacticsDSL.FunctionGrammar
import TacticsDSL.Sema.Node
import TacticsDSL.Sema.Basic
import TacticsDSL.Sema.Check
import TacticsDSL.Sema.Scope
import TacticsDSL.Sema.Resolved
import TacticsDSL.Sema.BasicTheorems
import TacticsDSL.Sema.ExpTheorems
import TacticsDSL.Sema.ClauseTheorems
import TacticsDSL.Sema.StmtTheorems
import TacticsDSL.Sema.FunctionTheorems
import TacticsDSL.Sema.ResolvedTheorems
import TacticsDSL.Sema.ShapeTheorems
import TacticsDSL.Sema.OccurrenceTheorems
import TacticsDSL.Sema.ReductionTheorems
import TacticsDSL.Sema.TypeSpelling
import TacticsDSL.Sema.TypeSpellingTheorems
import TacticsDSL.Sema.ExpSpellingTheorems
import TacticsDSL.Sema.StmtSpellingTheorems
import TacticsDSL.Sema.NarrowingTheorems
import TacticsDSL.Sema.SyntaxCheck
import TacticsDSL.Sema.SyntaxCheckTheorems
import TacticsDSL.Sema.SyntaxExpTheorems
import TacticsDSL.Sema.SyntaxFunctionTheorems
import TacticsDSL.Sema.Typing
import TacticsDSL.Sema.TypingTheorems
import TacticsDSL.Sema.TypedExpTheorems
import TacticsDSL.Sema.TypedFunctionTheorems
