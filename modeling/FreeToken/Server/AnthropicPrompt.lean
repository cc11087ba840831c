import FreeToken.Server.Types

/-!
# The prompt of an Anthropic request

`convertAnthropicPrompt` turns the messages of a request into turns for the chat template,
and `placeSystemMessages` settles the system turns that came after the conversation began:
kept where they are, or folded into the user turn before them.

The tool lists and the template arguments, which the same function returns, do not meet the
messages and are left out. A dictionary of the client (`J`) is only handed on.
-/

namespace FreeToken.Server.Anthropic

open FreeToken.Server

/-! ## Requests -/

/-- The `source` of an image block. -/
structure Source where
  type : Option Text := none
  data : Option Text := none
  url : Option Text := none

/-- An item of a tool result. -/
structure ResultItem where
  type : Option Text := none
  text : Option Text := none
  source : Option Source := none

inductive ResultContent where
  | text (s : Text)
  | items (items : List ResultItem)

structure ContentBlock (J : Type) where
  type : Text
  text : Option Text := none
  thinking : Option Text := none
  source : Option Source := none
  id : Option Text := none
  toolUseId : Option Text := none
  name : Option Text := none
  input : Option J := none
  content : Option ResultContent := none

inductive Content (J : Type) where
  | text (s : Text)
  | blocks (bs : List (ContentBlock J))

structure Message (J : Type) where
  role : Text
  content : Content J

structure Request (J : Type) where
  messages : List (Message J)
  system : Option (Content J) := none

/-! ## Turns -/

/-- A content part of a turn; `kind` and `data` are an image's `freetoken_ref`. -/
inductive Part where
  | text (s : Text)
  | image (kind data : Text)
deriving DecidableEq

inductive TurnContent where
  | text (s : Text)
  | parts (ps : List Part)
deriving DecidableEq

/-- The arguments of a call: the text `json.dumps` wrote for a dictionary, or the dictionary
`json.loads` read from that text. -/
inductive Arguments (J : Type) where
  | dumped (input : J)
  | loaded (input : J)
deriving DecidableEq

structure ToolCall (J : Type) where
  id : Text
  name : Text
  arguments : Arguments J
deriving DecidableEq

/-- A message for the chat template; an absent key is `none`. -/
structure Turn (J : Type) where
  role : Text
  content : Option TurnContent := none
  reasoningContent : Option Text := none
  thinking : Option Text := none
  toolCalls : Option (List (ToolCall J)) := none
  toolCallId : Option Text := none
deriving DecidableEq

/-- What an adapter hands to the tokenizer: a turn, or a system turn that is marked with
`IN_PLACE_SYSTEM_KEY`. -/
inductive Entry (J : Type) where
  | turn (t : Turn J)
  | inPlace (content : Text)
deriving DecidableEq

/-! ## Conversion -/

inductive PromptError where
  | unsupportedImage (stype : Option Text)
  /-- `images inside a tool_result are only accepted in a user message`. -/
  | imageInToolResult
deriving DecidableEq

def system : Text := "system".toList

def user : Text := "user".toList

def assistant : Text := "assistant".toList

/-- `block.type == type`. -/
def ContentBlock.is {J : Type} (b : ContentBlock J) (type : String) : Bool := b.type == type.toList

/-- The text of a field, if there is any. -/
def truthy (s : Option Text) : Option Text := s.filter fun t => t ≠ []

def billingHeaderPrefix : Text := "x-anthropic-billing-header:".toList

def isBillingHeader (text : Text) : Bool :=
  text ≠ [] && billingHeaderPrefix.isPrefixOf (lstrip text)

/-- The texts of the blocks that hold some. -/
def blockTexts {J : Type} (bs : List (ContentBlock J)) : List Text :=
  bs.filterMap fun b => if b.is "text" then truthy b.text else none

def contentText {J : Type} : Content J → Text
  | .text s => s
  | .blocks bs => (blockTexts bs).flatten

def imagePart (source : Option Source) : Except PromptError Part :=
  let src := source.getD {}
  let base64 := src.type == some "base64".toList
  match truthy (if base64 then src.data else src.url) with
  | none => .error (.unsupportedImage src.type)
  | some data => .ok (.image (if base64 then "b64".toList else "url".toList) data)

def ResultItem.isImage (i : ResultItem) : Bool := i.type == some "image".toList

/-- The text of a tool result and its image parts. -/
def toolResultParts : Option ResultContent → Except PromptError (Text × List Part)
  | none => .ok ([], [])
  | some (.text s) => .ok (s, [])
  | some (.items items) => do
    let images ← (items.filter ResultItem.isImage).mapM fun i => imagePart i.source
    let texts := (items.filter fun i => !i.isImage).map fun i => i.text.getD []
    .ok (texts.flatten, images)

/-- What the loop over the blocks of a message has gathered: `toolTurns` went to the prompt
already. -/
structure BlockState (J : Type) where
  contentParts : List Part := []
  toolCalls : List (ToolCall J) := []
  thinkingParts : List Text := []
  toolTurns : List (Turn J) := []
  /-- Ids made up so far. -/
  drawn : Nat

section Convert

variable {J : Type} [EmptyCollection J] (uuid : Nat → Text)

def convertBlock (role : Text) (s : BlockState J) (b : ContentBlock J) :
    Except PromptError (BlockState J) :=
  if b.is "text" && (truthy b.text).isSome then
    .ok { s with contentParts := s.contentParts ++ [.text (b.text.getD [])] }
  else if b.is "thinking" && (truthy b.thinking).isSome then
    .ok { s with thinkingParts := s.thinkingParts ++ [b.thinking.getD []] }
  else if b.is "image" then do
    let part ← imagePart b.source
    .ok { s with contentParts := s.contentParts ++ [part] }
  else if b.is "tool_use" then
    let call (id : Text) : ToolCall J := ⟨id, b.name.getD [], .dumped (b.input.getD ∅)⟩
    match truthy b.id with
    | some id => .ok { s with toolCalls := s.toolCalls ++ [call id] }
    | none =>
      .ok { s with toolCalls := s.toolCalls ++ [call ("call_".toList ++ uuid s.drawn)]
                   drawn := s.drawn + 1 }
  else if b.is "tool_result" then do
    let (text, images) ← toolResultParts b.content
    if role = user then
      let tool : Turn J :=
        { role := "tool".toList, content := some (.text text)
          toolCallId := some (((truthy b.toolUseId).orElse fun _ => truthy b.id).getD []) }
      .ok { s with toolTurns := s.toolTurns ++ [tool]
                   contentParts := s.contentParts ++ images }
    else if images ≠ [] then .error .imageInToolResult
    else
      let part := Part.text ("Tool result: ".toList ++ text)
      .ok { s with contentParts := s.contentParts ++ [part] }
  else .ok s

/-- The turn of a message's own, unless nothing in it is usable. -/
def BlockState.ownTurn (role : Text) (s : BlockState J) : Option (Turn J) :=
  if s.contentParts = [] ∧ s.toolCalls.isEmpty ∧ s.thinkingParts = [] then none
  else some
    { role := role
      content :=
        match s.contentParts with
        | [] => none
        | [.text text] => some (.text text)
        | parts => some (.parts parts)
      reasoningContent :=
        if s.thinkingParts = [] then none
        else some ("\n\n".toList.intercalate s.thinkingParts)
      toolCalls := if s.toolCalls.isEmpty then none else some s.toolCalls }

/-- The conversion after some messages. -/
structure Conversion (J : Type) where
  systemTexts : List Text
  other : List (Entry J) := []
  leading : Bool := true
  drawn : Nat := 0

/-- A user or assistant message. -/
def convertTurn (s : Conversion J) (m : Message J) : Except PromptError (Conversion J) :=
  match m.content with
  | .text text =>
    .ok { s with leading := false
                 other := s.other ++ [.turn { role := m.role, content := some (.text text) }] }
  | .blocks bs => do
    let b ← bs.foldlM (convertBlock uuid m.role) { drawn := s.drawn }
    .ok { s with leading := false, drawn := b.drawn
                 other := s.other ++ (b.toolTurns ++ (b.ownTurn m.role).toList).map .turn }

def convertMessage (systemInPlace : Bool) (s : Conversion J) (m : Message J) :
    Except PromptError (Conversion J) :=
  if m.role = system then
    if s.leading || !systemInPlace then
      .ok { s with systemTexts := s.systemTexts ++ [contentText m.content] }
    else .ok { s with other := s.other ++ [.inPlace (contentText m.content)] }
  else convertTurn uuid s m

/-- The system text of the request itself. -/
def topSystem (stripBillingHeader : Bool) : Option (Content J) → List Text
  | none => []
  | some (.text s) => if s = [] then [] else [s]
  | some (.blocks []) => []
  | some (.blocks bs) =>
    [((blockTexts bs).filter fun t => !(stripBillingHeader && isBillingHeader t)).flatten]

/-! ## Rendering -/

/-- `_flatten_text_parts`. -/
def flattenTextParts (ps : List Part) : TurnContent :=
  if ps.any fun p => match p with | .image _ _ => true | .text _ => false then .parts ps
  else .text (ps.map fun p => match p with | .text s => s | .image _ _ => []).flatten

def TurnContent.truthy : TurnContent → Bool
  | .text s => s ≠ []
  | .parts ps => ps ≠ []

/-- `json.loads` of the arguments. -/
def Arguments.load : Arguments J → Arguments J
  | .dumped input => .loaded input
  | .loaded input => .loaded input

/-- `_render_message`. -/
def renderTurn (m : Turn J) : Turn J :=
  let content := m.content.map fun c => match c with | .parts ps => flattenTextParts ps | c => c
  let reasoning := (Anthropic.truthy m.reasoningContent).orElse fun _ =>
    Anthropic.truthy m.thinking
  let calls := m.toolCalls.getD []
  let m := { m with content := content }
  let m :=
    match reasoning with
    | none => m
    | some r =>
      { m with
        reasoningContent := some (m.reasoningContent.getD r)
        thinking :=
          if !calls.isEmpty && (content.map TurnContent.truthy).getD false then m.thinking
          else some (m.thinking.getD r)
        content :=
          if m.role = assistant && content.isNone then some (.text []) else content }
  if calls.isEmpty then m
  else { m with toolCalls := some (calls.map fun c => { c with arguments := c.arguments.load }) }

def renderMessage : Entry J → Entry J
  | .turn t => .turn (renderTurn t)
  | .inPlace content => .inPlace content

/-- The one system turn at the front. -/
def leadingTurn (systemTexts : List Text) : List (Turn J) :=
  let systemText := "\n\n".toList.intercalate (systemTexts.filter fun t => t ≠ [])
  if systemText = [] then [] else [{ role := system, content := some (.text systemText) }]

/-- The messages that `convert_anthropic_prompt` returns. -/
def convertAnthropicPrompt (stripBillingHeader systemInPlace : Bool) (req : Request J) :
    Except PromptError (List (Entry J)) := do
  let start : Conversion J := { systemTexts := topSystem stripBillingHeader req.system }
  let s ← req.messages.foldlM (convertMessage uuid systemInPlace) start
  .ok (((leadingTurn s.systemTexts).map Entry.turn ++ s.other).map renderMessage)

end Convert

/-! ## Placement -/

section Place

variable {J : Type}

def Entry.marked : Entry J → Bool
  | .turn _ => false
  | .inPlace _ => true

/-- The turn without the mark. -/
def Entry.unmarked : Entry J → Turn J
  | .turn t => t
  | .inPlace content => { role := system, content := some (.text content) }

/-- A system text inside a user turn. -/
def systemReminder (content : Text) : Text :=
  "<system-reminder>\n".toList ++ content ++ "\n</system-reminder>".toList

/-- The content of a user turn with a reminder after it. -/
def mergeContent (content : Option TurnContent) (text : Text) : TurnContent :=
  match content with
  | some (.parts ps) => .parts (ps ++ [.text ("\n\n".toList ++ text)])
  | some (.text s) => if s = [] then .text text else .text (s ++ "\n\n".toList ++ text)
  | none => .text text

/-- One message; `keep`: the template takes a system turn in mid-conversation. -/
def placeOne (keep : Bool) (out : List (Turn J)) (e : Entry J) : List (Turn J) :=
  match e with
  | .turn t => out ++ [t]
  | .inPlace content =>
    if keep then out ++ [e.unmarked]
    else
      match out.getLast? with
      | some prev =>
        if prev.role = user then
          out.dropLast ++
            [{ prev with content := some (mergeContent prev.content (systemReminder content)) }]
        else out ++ [{ role := user, content := some (.text (systemReminder content)) }]
      | none => out ++ [{ role := user, content := some (.text (systemReminder content)) }]

def placeSystemMessages (keep : Bool) (messages : List (Entry J)) : List (Turn J) :=
  if messages.any Entry.marked then messages.foldl (placeOne keep) []
  else messages.map Entry.unmarked

end Place

end FreeToken.Server.Anthropic
