import Asm6510.Analysis.Cache
import Asm6510.Highlight
import Asm6510.Main
import Asm6510.Outline
import Asm6510.Proofs.Analysis.Caching
import Asm6510.Proofs.Analysis.CommentText
import Asm6510.Proofs.Analysis.Depth
import Asm6510.Proofs.Analysis.Positions
import Asm6510.Proofs.Grammar.AddressingModes
import Asm6510.Proofs.Grammar.Blocks
import Asm6510.Proofs.Grammar.Brackets
import Asm6510.Proofs.Grammar.Completeness
import Asm6510.Proofs.Grammar.DepthBound
import Asm6510.Proofs.Grammar.LineEnds
import Asm6510.Proofs.Grammar.Origins
import Asm6510.Proofs.Grammar.Partners
import Asm6510.Proofs.Grammar.Precedence
import Asm6510.Proofs.Grammar.Progress
import Asm6510.Proofs.Grammar.RenderedTokens
import Asm6510.Proofs.Grammar.Renderings
import Asm6510.Proofs.Grammar.Reparsing
import Asm6510.Proofs.Grammar.RoundTrip
import Asm6510.Proofs.Grammar.Tokenwise
import Asm6510.Proofs.Highlight.Decoding
import Asm6510.Proofs.Number.Numerals
import Asm6510.Proofs.Reference.Documents
import Asm6510.Proofs.Reference.MemoryTable
import Asm6510.Proofs.Scope.Bodies
import Asm6510.Proofs.Scope.FirstDefinitions
import Asm6510.Proofs.Scope.Innermost
import Asm6510.Proofs.Scope.Members
import Asm6510.Proofs.Scope.Outlines
import Asm6510.Proofs.Scope.Selections
import Asm6510.Proofs.Scope.Visibility
import Asm6510.Proofs.Token.CarriageReturns
import Asm6510.Proofs.Token.Composition
import Asm6510.Proofs.Token.Forms
import Asm6510.Proofs.Token.History
import Asm6510.Proofs.Token.LineComment
import Asm6510.Proofs.Token.Lookahead
import Asm6510.Proofs.Token.Progress
import Asm6510.Proofs.Token.Refusals
import Asm6510.Proofs.Token.ValueTokens
import Asm6510.Proofs.Token.Wholes
import Asm6510.Proofs.Usage.Columns
import Asm6510.Proofs.Usage.Comments
import Asm6510.Proofs.Usage.Counts
import Asm6510.Proofs.Usage.Enumerations
import Asm6510.Proofs.Usage.Passes
import Asm6510.Scope.Store
import Asm6510.Tree.Node
