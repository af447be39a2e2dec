import Wnza.Foundation.Feed
import Wnza.Foundation.FirstInsert
import Wnza.Foundation.DoWhile
import Wnza.Foundation.Longest
import Wnza.Foundation.LexicalPath
import Wnza.Http.Text
import Wnza.Http.Parser
import Wnza.Http.Grammar
import Wnza.Http.Recognition
import Wnza.Http.Moves
import Wnza.Http.Invariant
import Wnza.Http.Counter
import Wnza.Config.Tree
import Wnza.Handler.Basic
import Wnza.Handler.Echo
import Wnza.Handler.ReverseProxy
import Wnza.Handler.Static
import Wnza.Session.Receive
import Wnza.Session.Termination
import Wnza.Session.Framing
import Wnza.Session.Dispatch
import Wnza.Session.Routing
import Wnza.Session.Transparency
import Wnza.Server.Steps
import Wnza.Config.Lexer
import Wnza.Config.Parser
import Wnza.Config.Acceptance
import Wnza.Config.Printing
import Wnza.Foundation.Substring
import Wnza.Handler.ProxyTarget
import Wnza.Server.Table
import Wnza.Server.CacheRuns
import Wnza.Foundation.InputStream
import Wnza.Handler.ProxyReading
import Wnza.Handler.Relay
import Wnza.Foundation.Orbit
import Wnza.Handler.Redirects
import Wnza.Handler.Segmentation
import Wnza.Server.Accepting
import Wnza.Server.Writes
import Wnza.Session.Deliveries
import Wnza.Handler.Status
import Wnza.Server.LogHelper
import Wnza.Server.StatusPage
import Wnza.Http.Reach
import Wnza.Server.Lines
import Wnza.Http.Boundaries
import Wnza.Http.Folding
import Wnza.Handler.Announced
import Wnza.Config.Brackets
import Wnza.Handler.Naming
import Wnza.Config.Layout
import Wnza.Server.Lengths
import Wnza.Server.Counting
import Wnza.Foundation.Substitution
import Wnza.Handler.Forwarding
import Wnza.Handler.Links
import Wnza.Handler.BareLines
import Wnza.Server.Freshness
import Wnza.Config.Ports
import Wnza.Server.HandlerTable
import Wnza.Foundation.Memo
import Wnza.Server.Linearization
import Wnza.Server.Confinement
import Wnza.Server.Isolation
import Wnza.Server.Streams
import Wnza.Config.Concatenation
import Wnza.Config.Diagnosis
import Wnza.Handler.Hops
import Wnza.Server.Chaining
import Wnza.Foundation.Fairness
import Wnza.Server.Lifetime
import Wnza.Server.Program
import Wnza.Server.Readmission
import Wnza.Server.Admission
import Wnza.Server.Uncached
import Wnza.Server.Conversation
