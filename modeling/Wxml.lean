import Wxml.Cursor.Action
import Wxml.Main
import Wxml.Proofs.Idempotence
import Wxml.Proofs.Location
import Wxml.Proofs.Placement
import Wxml.Proofs.Coverage
import Wxml.Proofs.FaultPlaces
import Wxml.Proofs.LayoutContent
import Wxml.Proofs.LayoutText
import Wxml.Proofs.LayoutTokens
import Wxml.Proofs.RawLines
import Wxml.Proofs.LayoutStable
import Wxml.Proofs.RawStable
import Wxml.Proofs.ScriptIndent
import Wxml.Proofs.LayoutNesting
import Wxml.Proofs.Quoting
import Wxml.Proofs.RenderedTokens
import Wxml.Proofs.LayoutComments
import Wxml.Proofs.CommentRemoval
import Wxml.Proofs.BlockBody
import Wxml.Proofs.ComponentPrinting
import Wxml.Proofs.ComponentPlaces
import Wxml.Proofs.TemplateExtent
import Wxml.Proofs.FileChanges
import Wxml.Proofs.PathPlaces
import Wxml.Proofs.RunEffects
import Wxml.Proofs.Outputs
import Wxml.Proofs.Accounting
import Wxml.Proofs.AttributeOrder
import Wxml.Proofs.Shorthand
import Wxml.Proofs.TextRuns
import Wxml.Proofs.LoopHeads
import Wxml.Proofs.BalancedBody
import Wxml.Proofs.VoidElements
import Wxml.Proofs.Displacement
import Wxml.Proofs.RawKept
import Wxml.Proofs.InsertedContent
import Wxml.Proofs.MachineLines
import Wxml.Proofs.Discovery
import Wxml.Proofs.LineLookup
import Wxml.Proofs.FrameTags
import Wxml.Proofs.AttributeLists
import Wxml.Proofs.CursorSteps
import Wxml.Proofs.ChildLoops
import Wxml.Proofs.TokenStream
import Wxml.Proofs.OpenTagRuns
