import GlslCompose.Text.Basic
import GlslCompose.Text.Blank
import GlslCompose.Text.WordCharacter
import GlslCompose.Digest
import GlslCompose.Token.Lexer
import GlslCompose.Directive
import GlslCompose.ModulePath
import GlslCompose.Table
import GlslCompose.Number.Shortest
import GlslCompose.Number.Reader
import GlslCompose.Json.Reader
import GlslCompose.Settings.Reader
import GlslCompose.Define.Injection
import GlslCompose.Condition.Eval
import GlslCompose.Condition.Pass
import GlslCompose.Module.Store
import GlslCompose.Cache
import GlslCompose.Unit.Guard
import GlslCompose.Unit.Precision
import GlslCompose.Unit.Layout
import GlslCompose.Library.Basic
import GlslCompose.Library.Stages
import GlslCompose.Shader.Basic
import GlslCompose.Shader.Template
import GlslCompose.Proofs.Cache.Soundness
import GlslCompose.Proofs.Cache.Location
import GlslCompose.Proofs.Cache.Session
import GlslCompose.Proofs.Shader.Coherence
import GlslCompose.Proofs.Condition.Live
import GlslCompose.Proofs.Define.Placement
import GlslCompose.Proofs.Define.Reach
import GlslCompose.Proofs.Condition.Group
import GlslCompose.Proofs.Shader.Retry
import GlslCompose.Proofs.Shader.Failure
import GlslCompose.Proofs.Unit.Cycle
import GlslCompose.Proofs.Unit.Inclusion
import GlslCompose.Proofs.Token.Parting
import GlslCompose.Proofs.Token.Comments
import GlslCompose.Proofs.Token.Partition
import GlslCompose.Proofs.Unit.Comments
import GlslCompose.Proofs.Text.Marks
import GlslCompose.Proofs.Token.Splice
import GlslCompose.Proofs.Define.Line
import GlslCompose.Proofs.Define.Merge
import GlslCompose.Proofs.Define.Override
import GlslCompose.Proofs.Unit.Content
import GlslCompose.Proofs.Cache.Account
import GlslCompose.Proofs.Define.Search
import GlslCompose.Proofs.Define.FiniteMap
import GlslCompose.Proofs.Shader.Visibility
import GlslCompose.Proofs.Cache.Closure
import GlslCompose.Proofs.Cache.History
import GlslCompose.Proofs.Cache.Failure
import GlslCompose.Proofs.Shader.Idle
import GlslCompose.Proofs.Text.Runs
import GlslCompose.Proofs.Unit.Tidy
import GlslCompose.Proofs.Unit.Barrier
import GlslCompose.Proofs.Unit.Header
import GlslCompose.Proofs.Unit.Parallel
import GlslCompose.Proofs.Define.Containment
import GlslCompose.Proofs.Condition.Grammar
import GlslCompose.Proofs.Condition.Rendering
import GlslCompose.Proofs.Unit.Absence
import GlslCompose.Proofs.Unit.Staging
import GlslCompose.Proofs.Cache.Freshness
import GlslCompose.Proofs.Shader.Force
import GlslCompose.Proofs.Condition.Arithmetic
import GlslCompose.Proofs.Define.Completion
import GlslCompose.Proofs.Unit.Layout
import GlslCompose.Proofs.Condition.Continuation
import GlslCompose.Proofs.Condition.Replay
import GlslCompose.Proofs.Condition.Definedness
import GlslCompose.Proofs.Module.Resolution
import GlslCompose.Proofs.Module.Directory
import GlslCompose.Proofs.Module.StorePath
import GlslCompose.Proofs.Unit.Trace
import GlslCompose.Proofs.Unit.Version
import GlslCompose.Proofs.Unit.LineComment
import GlslCompose.Proofs.Unit.Registration
import GlslCompose.Proofs.Define.Injection
import GlslCompose.Proofs.Unit.Dialect
import GlslCompose.Proofs.Condition.Nesting
import GlslCompose.Proofs.Module.Tree
import GlslCompose.Proofs.Unit.Relayout
import GlslCompose.Proofs.Unit.Removal
