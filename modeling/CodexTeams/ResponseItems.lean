import CodexTeams.RustStr

/-! The items of a conversation with the model. Values that no function here looks into are carried
as their serialised text. -/
namespace ResponseItems

open RustStr

abbrev Serialised := Str

inductive ImageDetail
  | auto
  | low
  | high
  | original
  deriving DecidableEq, Repr

inductive InputModality
  | text
  | image
  deriving DecidableEq, Repr

inductive ContentItem
  | inputText (text : Str)
  | inputImage (imageUrl : Str) (detail : Option ImageDetail)
  | outputText (text : Str)
  deriving DecidableEq, Repr

inductive FunctionCallOutputContentItem
  | inputText (text : Str)
  | inputImage (imageUrl : Str) (detail : Option ImageDetail)
  | encryptedContent (encryptedContent : Str)
  deriving DecidableEq, Repr

inductive FunctionCallOutputBody
  | text (content : Str)
  | contentItems (items : List FunctionCallOutputContentItem)
  deriving DecidableEq, Repr

structure FunctionCallOutputPayload where
  body : FunctionCallOutputBody
  success : Option Bool
  deriving DecidableEq, Repr

def FunctionCallOutputPayload.fromText (content : Str) : FunctionCallOutputPayload :=
  ⟨.text content, none⟩

inductive MessagePhase
  | commentary
  | finalAnswer
  deriving DecidableEq, Repr

inductive LocalShellStatus
  | completed
  | inProgress
  | incomplete
  deriving DecidableEq, Repr

inductive ResponseItem
  | message (id : Option Str) (role : Str) (content : List ContentItem)
      (phase : Option MessagePhase)
  | reasoning (id : Str) (summary : List Serialised) (content : Option (List Serialised))
      (encryptedContent : Option Str)
  | localShellCall (id callId : Option Str) (status : LocalShellStatus) (action : Serialised)
  | functionCall (id : Option Str) (name : Str) («namespace» : Option Str) (arguments callId : Str)
  | toolSearchCall (id callId status : Option Str) (execution : Str) (arguments : Serialised)
  | functionCallOutput (callId : Str) (output : FunctionCallOutputPayload)
  | customToolCall (id status : Option Str) (callId name input : Str)
  | customToolCallOutput (callId : Str) (name : Option Str) (output : FunctionCallOutputPayload)
  | toolSearchOutput (callId : Option Str) (status execution : Str) (tools : List Serialised)
  | webSearchCall (id status : Option Str) (action : Option Serialised)
  | imageGenerationCall (id status : Str) (revisedPrompt : Option Str) (result : Str)
  | compaction (encryptedContent : Str)
  | compactionTrigger
  | contextCompaction (encryptedContent : Option Str)
  | other
  deriving DecidableEq, Repr

end ResponseItems
