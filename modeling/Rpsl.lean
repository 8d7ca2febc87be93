import Rpsl.Lib.Unicode
import Rpsl.Types.Addr
import Rpsl.Types.PrefixRange
import Rpsl.Types.PrefixSpace
import Rpsl.Types.Proof.SpaceMem
import Rpsl.Types.Proof.SpaceCanon
import Rpsl.Types.Proof.SpaceExact
import Rpsl.Resolve.Cache
import Rpsl.Resolve.Proof.CacheInv
import Rpsl.Nrtm4.Client
import Rpsl.Nrtm4.Proof.Sync
import Rpsl.Nrtm4.Proof.NoRollback
import Rpsl.Nrtm4.Proof.Mirror
import Rpsl.Lexer.Lexer
import Rpsl.Lexer.Proof.Lines
import Rpsl.Lexer.Proof.Values
import Rpsl.Lexer.Proof.Partition
import Rpsl.Types.SetName
import Rpsl.Types.Proof.SpaceRanges
import Rpsl.Policy.ASPath
import Rpsl.Policy.Filter
import Rpsl.Policy.Proof.TestText
import Rpsl.Resolve.NormalForm
import Rpsl.Resolve.FilterMemo
import Rpsl.Resolve.Proof.FilterMemo
import Rpsl.Resolve.Meaning
import Rpsl.Peval.Policy
import Rpsl.Consist.Consist
import Rpsl.Consist.Proof.Sides
import Rpsl.Consist.Proof.Sound
import Rpsl.Object.Object
import Rpsl.Resolve.Claims
import Rpsl.Resolve.OpStack
import Rpsl.Resolve.Expander
import Rpsl.Lib.UnionSystem
import Rpsl.Resolve.Proof.OpStack
import Rpsl.Lib.Outcome
import Rpsl.Resolve.Equations
import Rpsl.Resolve.Proof.Discover
import Rpsl.Resolve.Proof.Walk
import Rpsl.Resolve.Proof.Expand
import Rpsl.Resolve.Proof.Limits
import Rpsl.Types.RangeText
import Rpsl.Rpki.Rpki
import Rpsl.Rpki.Proof.Validate
import Rpsl.Types.AddrFamily
import Rpsl.Policy.Expr
import Rpsl.Policy.Flatten
import Rpsl.Policy.Proof.FlattenRun
import Rpsl.Policy.Proof.Flatten
import Rpsl.Filtergen.Tree
import Rpsl.Types.Proof.Order
import Rpsl.Filtergen.Proof.Insert
import Rpsl.Filtergen.Proof.Aggregate
import Rpsl.Lexer.Proof.Append
import Rpsl.Lexer.Proof.Regroup
import Rpsl.Lexer.Proof.Kinds
import Rpsl.Ast.Object
import Rpsl.Ast.Diagnostic
import Rpsl.Ast.Proof.NewAttr
import Rpsl.Ast.Proof.Edit
import Rpsl.Stream.Reader
import Rpsl.Stream.Streamer
import Rpsl.Stream.Proof.Lines
import Rpsl.Stream.Proof.Caps
import Rpsl.Stream.Proof.Batch
import Rpsl.Lib.Ere
import Rpsl.Resolve.PathMeaning
import Rpsl.Rtconfig.Vendor
import Rpsl.Rtconfig.Regex
import Rpsl.Rtconfig.Proof.PathText
import Rpsl.Rtconfig.Proof.Regex
import Rpsl.Types.PrefixSubset
import Rpsl.Types.Proof.Subset
import Rpsl.Types.SetRef
import Rpsl.Types.Proof.SetNameText
import Rpsl.Policy.Template
import Rpsl.Policy.Proof.Template
import Rpsl.Lib.Dyadic
import Rpsl.Types.AddrRange
import Rpsl.Types.Proof.AddrRange
import Rpsl.Consist.Lint
import Rpsl.Consist.Proof.Lint
import Rpsl.Types.AddrText
import Rpsl.Auth.Object
import Rpsl.Auth.MemDatabase
import Rpsl.Auth.Rules
import Rpsl.Auth.Proof.MemDatabase
import Rpsl.Auth.Proof.Rules
import Rpsl.Policy.Action
import Rpsl.Rtconfig.Community
import Rpsl.Rtconfig.Actions
import Rpsl.Auth.RouteCreation
import Rpsl.Auth.Proof.RouteCreation
import Rpsl.Types.Enumerate
import Rpsl.Types.RangeParse
import Rpsl.Types.Proof.Enumerate
import Rpsl.Types.Proof.AddrText
import Rpsl.Types.Proof.RangeParse
import Rpsl.Policy.Proof.FlattenBudget
import Rpsl.Lib.Memo
import Rpsl.Types.RouterId
import Rpsl.Resolve.ExpandMore
import Rpsl.Peval.Match
import Rpsl.Peval.Proof.Match
import Rpsl.Lib.Walk
import Rpsl.Resolve.Concurrent
import Rpsl.Resolve.Proof.Concurrent
import Rpsl.Resolve.Proof.Order
import Rpsl.Resolve.Proof.AnyOrder
import Rpsl.Lib.Token
import Rpsl.Lib.PathPattern
import Rpsl.Rtconfig.Proof.WholePath
import Rpsl.Rtconfig.Proof.Actions
import Rpsl.Policy.ASPathParse
import Rpsl.Policy.Proof.ASPathParse
import Rpsl.Consist.PathAll
import Rpsl.Resolve.Proof.PathMeaning
import Rpsl.Consist.Proof.PathAll
import Rpsl.Types.Proof.SpaceOrder
import Rpsl.Filtergen.Proof.Refine
import Rpsl.Lib.FirstFit
import Rpsl.Rtconfig.Junos
import Rpsl.Rtconfig.Proof.Junos
import Rpsl.Object.SrcMembers
import Rpsl.Resolve.Proof.SrcMembers
import Rpsl.Resolve.Proof.Trim
import Rpsl.Lib.Digits
import Rpsl.Auth.Proof.Reverse
import Rpsl.Nrtm4.Keys
import Rpsl.Nrtm4.Proof.Keys
import Rpsl.Lib.Search
import Rpsl.Lib.Yield
import Rpsl.Irrdq.Registry
import Rpsl.Irrdq.Snapshot
import Rpsl.Irrdq.Search
import Rpsl.Irrdq.Proof.Registry
import Rpsl.Irrdq.Proof.Search
import Rpsl.Types.Proof.SetNameCase
import Rpsl.Lib.Bufio
import Rpsl.Nrtm4.Seq
import Rpsl.Nrtm4.Proof.Seq
import Rpsl.Irrdq.Answer
import Rpsl.Irrdq.Proof.Answer
import Rpsl.Irrd.Frame
import Rpsl.Irrd.Proof.Frame
import Rpsl.Irrd.Server
import Rpsl.Irrd.Proof.Server
import Rpsl.Irrd.Proof.Session
import Rpsl.Stream.Iter
import Rpsl.Stream.Proof.Iter
import Rpsl.Stream.Proof.Describe
