import BlackweLLM.ChatContent

/-!
# Chat request adapters

`parse_chat_messages` of `server/formats/openai.py`, `parse_messages` of
`server/formats/anthropic.py` and `parse_input` of `server/formats/responses.py`:
from a request body to the messages that the chat template takes. `json.loads`
stands without its `NaN` and `Infinity`.
-/

namespace ChatForms

open JsonText ChatContent

variable (isPrintable : Char → Bool)

def message (role : Json) (content : Json) : Dict := [("role".toList, role), ("content".toList, content)]

section OpenAI

def contentForTemplate (field : Json) : Option Json :=
  if contentHasImages isPrintable field || contentHasVideos isPrintable field then
    some (.arr (normalizeContentBlocks isPrintable field))
  else (extractText isPrintable field).map .str

/-- The arguments of a function, read where they are the text of a value. -/
def loadArguments (arguments : Json) : Json :=
  match arguments with
  | .str s => (loads s).getD (.str s)
  | v => v

def convertFunction (fn : Dict) : Dict :=
  match Dict.get fn "arguments" with
  | some (.str s) => setMember fn "arguments".toList (loadArguments (.str s))
  | _ => fn

/-- A tool call of the template; a `function` that is no object raises. -/
def convertCall : Json → Option Json
  | .obj tc =>
    match Dict.get tc "function" with
    | none => some (.obj tc)
    | some (.obj fn) => some (.obj (setMember tc "function".toList (.obj (convertFunction fn))))
    | some _ => none
  | _ => none

def parseChatMessage (msg : Dict) : Option Dict := do
  let role := (Dict.get msg "role").getD (text "user")
  let content := (Dict.get msg "content").getD .null
  let entry ←
    if isText role "tool" then do
      let content ← extractText isPrintable content
      pure (message role (.str content) ++
        match Dict.get msg "tool_call_id" with
        | some id => [("tool_call_id".toList, id)]
        | none => [])
    else
      match isText role "assistant", Dict.get msg "tool_calls" with
      | true, some (.arr calls) => do
        let content ← contentForTemplate isPrintable content
        let converted ← calls.mapM convertCall
        pure (message role content ++ [("tool_calls".toList, .arr converted)])
      | true, some _ => none
      | _, _ => do
        let content ← contentForTemplate isPrintable content
        pure (message role content)
  pure (entry ++
    match isText role "assistant", Dict.get msg "reasoning_content" with
    | true, some (.str reasoning) => [("reasoning_content".toList, .str reasoning)]
    | _, _ => [])

/-- The messages of a list that holds nothing else. -/
def eachMessage {A : Type} (parse : Dict → Option A) : Json → Option A
  | .obj msg => parse msg
  | _ => none

def parseChatMessages (body : Dict) : Option (List Dict) :=
  match Dict.get body "messages" with
  | none => some []
  | some (.arr msgs) => msgs.mapM (eachMessage (parseChatMessage isPrintable))
  | some _ => none

end OpenAI

section Anthropic

def billingHeader : Text := "x-anthropic-billing-header".toList

def isBillingBlock (block : Dict) : Bool :=
  isText ((Dict.get block "type").getD .null) "text" &&
    match Dict.get block "text" with
    | some (.str s) => billingHeader.isPrefixOf s
    | _ => false

def stripBillingBlocks (blocks : List Dict) : List Dict := blocks.filter fun block => !isBillingBlock block

/-- The `system` field without the billing header. -/
def systemField : Json → Json
  | .arr blocks => .arr (blocks.filter fun
    | .obj block => !isBillingBlock block
    | _ => true)
  | .str s => .str (if billingHeader.isPrefixOf s then [] else s)
  | v => v

def systemMessages (field : Json) : Option (List Dict) :=
  if contentHasImages isPrintable field || contentHasVideos isPrintable field then
    some [message (text "system") (.arr (normalizeContentBlocks isPrintable field))]
  else do
    let systemText ← extractText isPrintable field
    pure (if systemText = [] then [] else [message (text "system") (.str systemText)])

/-- What the loop over the blocks of a message collects; `tools` are calls or results. -/
structure Parts where
  texts : List Json := []
  multimodal : List Json := []
  hasMultimodal : Bool := false
  tools : List Dict := []

def Parts.addText (p : Parts) (content : Json) : Parts :=
  { p with
    texts := p.texts ++ [content]
    multimodal := p.multimodal ++ [.obj [("type".toList, text "text"), ("text".toList, content)]] }

def Parts.addMultimodal (p : Parts) (block : Dict) : Parts :=
  { p with hasMultimodal := true, multimodal := p.multimodal ++ [.obj (normalizeBlock isPrintable block)] }

def Parts.addTool (p : Parts) (tool : Dict) : Parts := { p with tools := p.tools ++ [tool] }

def hashable : Json → Bool
  | .arr _ => false
  | .obj _ => false
  | _ => true

def functionCall (id name arguments : Json) : Dict :=
  [("id".toList, id), ("type".toList, text "function"),
    ("function".toList, .obj [("name".toList, name), ("arguments".toList, arguments)])]

def toolMessage (content id : Json) : Dict := message (text "tool") content ++ [("tool_call_id".toList, id)]

/-- One block of an assistant message; a type without a hash raises. -/
def assistantBlock (p : Parts) (block : Dict) : Option Parts :=
  let btype := (Dict.get block "type").getD (text "text")
  if isText btype "text" then some (p.addText ((Dict.get block "text").getD (text "")))
  else if isText btype "image" || isText btype "video" then some (p.addMultimodal isPrintable block)
  else if isText btype "tool_use" then
    some (p.addTool (functionCall ((Dict.get block "id").getD (text "")) ((Dict.get block "name").getD (text ""))
      ((Dict.get block "input").getD (.obj []))))
  else if hashable btype then some p
  else none

/-- The types in `_USER_TEXT_EXTRACT_TYPES`. -/
def isExtractType (btype : Json) : Bool :=
  isText btype "web_search_tool_result" || isText btype "search_result" || isText btype "code_execution_tool_result"

def extractedText : Json → Option Text
  | .arr blocks => extractText isPrintable (.arr blocks)
  | .str s => some s
  | _ => some []

def userBlock (p : Parts) (block : Dict) : Option Parts :=
  let btype := (Dict.get block "type").getD (text "text")
  let content := (Dict.get block "content").getD (text "")
  if isText btype "text" then some (p.addText ((Dict.get block "text").getD (text "")))
  else if isText btype "image" || isText btype "video" then some (p.addMultimodal isPrintable block)
  else if isText btype "tool_result" then do
    let result ← match content with
      | .arr blocks => extractText isPrintable (.arr blocks)
      | v => some (pyStr isPrintable v)
    pure (p.addTool (toolMessage (.str result) ((Dict.get block "tool_use_id").getD (text ""))))
  else if isExtractType btype then do
    let result ← extractedText isPrintable content
    pure (if result = [] then p else p.addText (.str result))
  else if hashable btype then some p
  else none

def parseMessage (msg : Dict) : Option (List Dict) :=
  let role := (Dict.get msg "role").getD (text "user")
  let content := (Dict.get msg "content").getD .null
  let blocks := stripBillingBlocks (extractBlocks isPrintable content)
  if isText role "assistant" then do
    let p ← blocks.foldlM (assistantBlock isPrintable) {}
    let content ← if p.hasMultimodal then some (Json.arr p.multimodal) else (joinLines p.texts).map .str
    pure [message role content ++ if p.tools = [] then [] else [("tool_calls".toList, .arr (p.tools.map .obj))]]
  else if isText role "user" then do
    let p ← blocks.foldlM (userBlock isPrintable) {}
    let user ←
      if p.hasMultimodal then some [message role (.arr p.multimodal)]
      else if p.texts ≠ [] then (joinLines p.texts).map fun s => [message role (.str s)]
      else if p.tools = [] then some [message role (text "")]
      else some []
    pure (p.tools ++ user)
  else do
    let content ← extractText isPrintable content
    pure [message role (.str content)]

def parseMessages (body : Dict) : Option (List Dict) := do
  let system ← systemMessages isPrintable (systemField ((Dict.get body "system").getD .null))
  let chat ← match Dict.get body "messages" with
    | none => some []
    | some (.arr msgs) => msgs.mapM (eachMessage (parseMessage isPrintable))
    | some _ => none
  pure (system ++ chat.flatten)

end Anthropic

section Responses

/-- `a or b` -/
def pyOr (a b : Json) : Json := if truthy a then a else b

def blockText : Json → Text
  | .str s => s
  | .obj block => pyStr isPrintable
      (pyOr (pyOr ((Dict.get block "text").getD .null) ((Dict.get block "refusal").getD .null)) (text ""))
  | _ => []

def textOf (block : Json) : List Dict :=
  if blockText isPrintable block = [] then [] else [textBlock (blockText isPrintable block)]

local instance : LawfulBEq Text := inferInstance

def inputBlock : Json → List Dict
  | .obj block =>
    let kind := blockType isPrintable block
    if kind ∈ imageTypes then [[("type".toList, text "image"), ("image_url".toList, Dict.getOr block "image_url" "image")]]
    else if kind ∈ videoTypes then [[("type".toList, text "video"), ("video".toList, Dict.getOr block "video_url" "video")]]
    else if kind = "input_text".toList ∨ kind = "text".toList then [textBlock (blockText isPrintable (.obj block))]
    else textOf isPrintable (.obj block)
  | block => textOf isPrintable block

def inputContent : Json → Json
  | .arr content =>
    let blocks := content.flatMap (inputBlock isPrintable)
    let field := Json.arr (blocks.map .obj)
    if contentHasImages isPrintable field || contentHasVideos isPrintable field then
      .arr (normalizeContentBlocks isPrintable field)
    else .str (join ['\n'] (blocks.filterMap fun block =>
      match Dict.get block "text" with
      | some (.str s) => if s = [] then none else some s
      | _ => none))
  | content => .str (blockText isPrintable content)

-- the random id of a call that came without one
variable (freshId : Dict → Text)

/-- The messages of one input item; other types give none. -/
def parseItem : Json → List Dict
  | .obj item =>
    let itype := (Dict.get item "type").getD .null
    if isText itype "message" then
      let role := (Dict.get item "role").getD (text "user")
      let role := if isText role "developer" then text "system" else role
      [message role (inputContent isPrintable ((Dict.get item "content").getD .null))]
    else if isText itype "function_call" then
      [message (text "assistant") (text "") ++ [("tool_calls".toList, .arr [.obj (functionCall
        (pyOr ((Dict.get item "call_id").getD .null) (.str (freshId item)))
        ((Dict.get item "name").getD (text ""))
        (loadArguments ((Dict.get item "arguments").getD (text ""))))])]]
    else if isText itype "function_call_output" then
      [toolMessage (.str (pyStr isPrintable ((Dict.get item "output").getD (text ""))))
        ((Dict.get item "call_id").getD (text ""))]
    else if isText itype "reasoning" then
      let summary := (Dict.get item "summary").getD .null
      if truthy summary then [message (text "assistant") (.str (blockText isPrintable summary))] else []
    else []
  | _ => []

def instructionMessages (instructions : Json) : List Dict :=
  match instructions with
  | .str s => if s = [] then [] else [message (text "system") (.str s)]
  | .arr blocks =>
    if blocks = [] then []
    else if truthy (inputContent isPrintable (.arr blocks)) then
      [message (text "system") (inputContent isPrintable (.arr blocks))]
    else []
  | _ => []

def parseInput (body : Dict) : List Dict :=
  instructionMessages isPrintable ((Dict.get body "instructions").getD .null) ++
    match Dict.get body "input" with
    | some (.str s) => [message (text "user") (.str s)]
    | some (.arr items) => items.flatMap (parseItem isPrintable freshId)
    | _ => []

end Responses

end ChatForms
