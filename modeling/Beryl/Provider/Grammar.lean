import Mathlib.Algebra.Order.Ring.Nat

/-!
# Provider/Grammar — the closed vocabulary of provider observations

What a connection tells about an item of a turn arrives as an *observation*: a begin, then controls
and text fragments, then a seal with the route of the item.  Everything in it comes from a closed
grammar, and the position of a word in its enumeration is the byte that stands for it.
-/

namespace Beryl.Provider

/-- The streamed strings and keys of the pinned grammar. -/
inductive ProviderField
  | lifecycleObservedAt | itemId | clientId | hookFragments | hookFragmentText | hookRunId
  | agentMessageText | messagePhase | memoryCitation | memoryCitationEntries | memoryCitationPath
  | memoryCitationLineStart | memoryCitationLineEnd | memoryCitationNote
  | memoryCitationThreadIds | memoryCitationThreadId | planText | reasoningSummaries
  | reasoningSummary | command | workingDirectory | processId | commandSource | commandStatus
  | commandActions | commandActionKind | commandActionCommand | commandActionName
  | commandActionPath | commandActionQuery | aggregatedOutput | exitCode | durationMs
  | fileChangeStatus | fileChanges | fileChangePath | fileChangeDiff | fileChangeKind
  | fileChangeMovePath | mcpServer | mcpTool | mcpStatus | mcpArguments | mcpAppContext
  | mcpConnectorId | mcpLinkId | mcpResourceUri | mcpAppName | mcpTemplateId | mcpActionName
  | mcpPluginId | mcpResult | mcpResultContents | mcpResultContent | mcpStructuredContent
  | mcpMeta | mcpError | mcpErrorMessage | dynamicNamespace | dynamicTool | dynamicArguments
  | dynamicStatus | dynamicContentItems | dynamicContentItemKind | dynamicOutputText
  | dynamicOutputImageLocator | dynamicSuccess | collabTool | collabStatus | collabSenderThreadId
  | collabReceiverThreadIds | collabReceiverThreadId | collabPrompt | collabModel
  | collabReasoningEffort | collabAgentStates | collabAgentStateKey | collabAgentStateStatus
  | collabAgentStateMessage | subAgentKind | subAgentThreadId | subAgentPath | webSearchQuery
  | webSearchAction | webSearchActionKind | webSearchActionQuery | webSearchActionQueryList
  | webSearchActionQueries | webSearchUrl | webSearchPattern | imageViewPath | sleepDurationMs
  | imageGenerationStatus | imageGenerationRevisedPrompt | imageGenerationSavedPath
  | enteredReview | exitedReview | deltaSummaryIndex | deltaContentIndex | deltaChanges
  | deltaText | mcpProgressMessage
  deriving DecidableEq

/-- Where a value lies inside one structured root. -/
inductive ProviderStructuredPosition
  | listElement (index : ℕ)
  | objectKey (entry : ℕ)
  | objectValue (entry : ℕ)
  deriving DecidableEq

/-- The owner of a scalar, string or container. -/
inductive ProviderValueContext
  | field (field : ProviderField)
  | structured (root : ProviderField) (depth : ℕ) (position : ProviderStructuredPosition)
  deriving DecidableEq

/-- What holds values. -/
inductive ProviderContainer
  | list | object
  deriving DecidableEq

/-- The classes of JSON numbers, kept apart; a float is its bits. -/
inductive ProviderScalar
  | null
  | boolean (value : Bool)
  | signed (value : ℤ)
  | unsigned (value : ℕ)
  | finiteFloat (bits : ℕ)
  deriving DecidableEq

/-- Every enumerated outcome of the grammar. -/
inductive ProviderEnumValue
  | commentary | finalAnswer | agent | userShell | unifiedExecStartup | unifiedExecInteraction
  | inProgress | completed | failed | declined | add | delete | update | spawnAgent | sendInput
  | resumeAgent | wait | closeAgent | pendingInit | running | interrupted | errored | shutdown
  | notFound | subAgentStarted | subAgentInteracted | subAgentInterrupted | search | openPage
  | findInPage | inputText | inputImage | read | listFiles | unknown | other
  deriving DecidableEq

/-- The controls of an observation, independent of how its texts are paged. -/
inductive ProviderObservationControl
  | beginField (context : ProviderValueContext)
  | endField (context : ProviderValueContext)
  | beginContainer (context : ProviderValueContext) (container : ProviderContainer)
  | endContainer (context : ProviderValueContext) (container : ProviderContainer)
  | beginElement (context : ProviderValueContext) (index : ℕ)
  | endElement (context : ProviderValueContext) (index : ℕ)
  | beginObjectEntry (root : ProviderField) (depth entry : ℕ)
  | endObjectEntry (root : ProviderField) (depth entry : ℕ)
  | enum (context : ProviderValueContext) (value : ProviderEnumValue)
  | scalar (context : ProviderValueContext) (value : ProviderScalar)
  deriving DecidableEq

/-- Where an item is. -/
inductive ProviderItemLifecycle
  | started | completed
  deriving DecidableEq

/-- The captured kinds of items. -/
inductive ProviderItemKind
  | hookPrompt | agentMessage | plan | reasoning | commandExecution | fileChange | mcpToolCall
  | dynamicToolCall | collabAgentToolCall | subAgentActivity | webSearch | imageView | sleep
  | standaloneImageGeneration | enteredReviewMode | exitedReviewMode | contextCompaction
  deriving DecidableEq

/-- The nine delta methods. -/
inductive ProviderDeltaKind
  | agentMessage | plan | reasoningSummaryPartAdded | reasoningSummaryText
  | reasoningTextObserved | commandExecutionOutput | fileChangeOutput | fileChangePatchUpdated
  | mcpToolCallProgress
  deriving DecidableEq

/-- The kind of item that a delta method adds to. -/
def ProviderDeltaKind.expectedItemKind : ProviderDeltaKind → ProviderItemKind
  | .agentMessage => .agentMessage
  | .plan => .plan
  | .reasoningSummaryPartAdded | .reasoningSummaryText | .reasoningTextObserved => .reasoning
  | .commandExecutionOutput => .commandExecution
  | .fileChangeOutput | .fileChangePatchUpdated => .fileChange
  | .mcpToolCallProgress => .mcpToolCall

/-- What is known of an observation before its first field. -/
inductive ProviderObservationBegin
  | item (lifecycle : ProviderItemLifecycle) (kind : ProviderItemKind)
  | delta (kind : ProviderDeltaKind)
  deriving DecidableEq

end Beryl.Provider
