import PlatformSpec.Agent.ActionText
import PlatformSpec.Agent.HistoryTransform
import PlatformSpec.Agent.ReActHistory
import PlatformSpec.CodeNode.Conformance
import PlatformSpec.CodeNode.TemplateTransformer
import PlatformSpec.Conditions.Numeric
import PlatformSpec.Container.Conversation
import PlatformSpec.Container.Loop
import PlatformSpec.Container.Usage
import PlatformSpec.DraftVariable.Dangling
import PlatformSpec.DraftVariable.Inference
import PlatformSpec.DraftVariable.RoundTrip
import PlatformSpec.Engine.ErrorStrategies
import PlatformSpec.Engine.FetchCommands
import PlatformSpec.Engine.Freeze
import PlatformSpec.Engine.Snapshot
import PlatformSpec.Engine.Terminal
import PlatformSpec.Extraction.JsonMarkdown
import PlatformSpec.Extraction.ParameterExtractor
import PlatformSpec.HumanInput.FormContent
import PlatformSpec.Indexing.KeywordHistory
import PlatformSpec.Indexing.KeywordSearch
import PlatformSpec.Indexing.TaskValues
import PlatformSpec.Indexing.TenantQueue
import PlatformSpec.Libs.Uuid
import PlatformSpec.Llm.Reasoning
import PlatformSpec.Mcp.Session
import PlatformSpec.Persistence.PauseAtomic
import PlatformSpec.Plugin.ChunkMerger
import PlatformSpec.Plugin.ResponseRoundTrip
import PlatformSpec.Prompt.TemplateParser
import PlatformSpec.Prompt.ThreadMessages
import PlatformSpec.Rag.CachedEmbedding
import PlatformSpec.Rag.CleanedText
import PlatformSpec.Rag.KeptText
import PlatformSpec.Rag.MarkdownExtractor
import PlatformSpec.Rag.RerankModel
import PlatformSpec.Rag.TokenSplitter
import PlatformSpec.Response.Answer
import PlatformSpec.Response.Parsing
import PlatformSpec.Response.TtsPublisher
import PlatformSpec.Retention.ArchiveRun
import PlatformSpec.Retention.CleanupExact
import PlatformSpec.Runtime.LargeLanguageModel
import PlatformSpec.RuoYi.ChatIsolation
import PlatformSpec.RuoYi.DataScopeExact
import PlatformSpec.RuoYi.DeptRun
import PlatformSpec.RuoYi.IpUtils
import PlatformSpec.RuoYi.JobArguments
import PlatformSpec.Scheduling.Activation
import PlatformSpec.Scheduling.Exclusive
import PlatformSpec.Scheduling.PauseResume
import PlatformSpec.Schemas.HistoryIndependence
import PlatformSpec.Service.ApiToken
import PlatformSpec.Service.CreditPool
import PlatformSpec.Service.LoadBalancing
import PlatformSpec.Service.Pagination
import PlatformSpec.Service.RateLimit
import PlatformSpec.Service.TokenManager
import PlatformSpec.Snapshot.Lossless
import PlatformSpec.Storage.VersionRuns
import PlatformSpec.Trigger.DebugEventBus
import PlatformSpec.Truncation.SizeLimit
import PlatformSpec.Variables.Types
import PlatformSpec.Workflow.RootBranches
