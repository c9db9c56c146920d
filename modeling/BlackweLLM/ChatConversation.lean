import BlackweLLM.ChatForms

/-!
# Conversations through the chat adapters

A conversation as a client holds it, the request bodies that the OpenAI, the
Anthropic and the Responses API carry it in, and the messages that the chat
template should get.
-/

namespace ChatConversation

open List JsonText ChatContent ChatForms

structure Call where
  id : Text
  name : Text
  arguments : Dict
  argumentsText : Text
  id_ne : id ≠ []
  distinct : (Json.obj arguments).Distinct
  reads : loads argumentsText = some (.obj arguments)

/-- A call under the text that `json.dumps` gives its arguments. -/
def Call.ofArguments (id name : Text) (arguments : Dict) (hid : id ≠ []) (h : (Json.obj arguments).Distinct) : Call :=
  ⟨id, name, arguments, dumps (.obj arguments), hid, h, loads_dumps h⟩

/-- The content of a tool result: a string or text blocks. -/
inductive ResultContent where
  | string (s : Text)
  | blocks (texts : List Text)

structure Result where
  callId : Text
  content : ResultContent

/-- A turn, an assistant's with the results that answer its calls. -/
inductive Turn where
  | user (content : Text)
  | assistant (content : Text) (calls : List Call) (results : List Result)
      (answers : ∀ r ∈ results, r.callId ∈ calls.map Call.id)

structure Conversation where
  /-- The system text; an empty one is none. -/
  system : Text
  turns : List Turn

section Messages

def ResultContent.text : ResultContent → Text
  | .string s => s
  | .blocks texts => join ['\n'] texts

def Call.message (c : Call) : Dict := functionCall (.str c.id) (.str c.name) (.obj c.arguments)

def Result.message (r : Result) : Dict := toolMessage (.str r.content.text) (.str r.callId)

def assistantMessage (content : Text) (calls : List Call) : Dict :=
  message (text "assistant") (.str content) ++
    if calls = [] then [] else [("tool_calls".toList, .arr (calls.map fun c => .obj c.message))]

def Turn.messages : Turn → List Dict
  | .user content => [message (text "user") (.str content)]
  | .assistant content calls results _ => assistantMessage content calls :: results.map Result.message

def systemMessage (system : Text) : List Dict := if system = [] then [] else [message (text "system") (.str system)]

/-- What the chat template should get. -/
def Conversation.messages (c : Conversation) : List Dict := systemMessage c.system ++ c.turns.flatMap Turn.messages

end Messages

section Forms

def ResultContent.openai : ResultContent → Json
  | .string s => .str s
  | .blocks texts => .arr (texts.map fun s => .obj (textBlock s))

def Call.openai (c : Call) : Dict := functionCall (.str c.id) (.str c.name) (.str c.argumentsText)

def Result.openai (r : Result) : Dict :=
  [("role".toList, text "tool"), ("tool_call_id".toList, .str r.callId), ("content".toList, r.content.openai)]

def openaiAssistant (content : Text) (calls : List Call) : Dict :=
  message (text "assistant") (.str content) ++
    if calls = [] then [] else [("tool_calls".toList, .arr (calls.map fun c => .obj c.openai))]

def Turn.openai : Turn → List Dict
  | .user content => [message (text "user") (.str content)]
  | .assistant content calls results _ => openaiAssistant content calls :: results.map Result.openai

def Conversation.openai (c : Conversation) : Dict :=
  [("messages".toList, .arr ((systemMessage c.system ++ c.turns.flatMap Turn.openai).map .obj))]

def Call.anthropic (c : Call) : Dict :=
  [("type".toList, text "tool_use"), ("id".toList, .str c.id), ("name".toList, .str c.name),
    ("input".toList, .obj c.arguments)]

def Result.anthropic (r : Result) : Dict :=
  [("type".toList, text "tool_result"), ("tool_use_id".toList, .str r.callId), ("content".toList, r.content.openai)]

/-- The blocks of an assistant turn; there is no block for an empty text. -/
def assistantBlocks (content : Text) (calls : List Call) : List Dict :=
  (if content = [] then [] else [textBlock content]) ++ calls.map Call.anthropic

def Turn.anthropic : Turn → List Dict
  | .user content => [message (text "user") (.str content)]
  | .assistant content calls results _ =>
    message (text "assistant") (.arr ((assistantBlocks content calls).map .obj)) ::
      if results = [] then [] else [message (text "user") (.arr ((results.map Result.anthropic).map .obj))]

def Conversation.anthropic (c : Conversation) : Dict :=
  [("system".toList, .str c.system), ("messages".toList, .arr ((c.turns.flatMap Turn.anthropic).map .obj))]

def itemBlock (kind : String) (s : Text) : Dict := [("type".toList, text kind), ("text".toList, .str s)]

def itemMessage (role kind : String) (s : Text) : Dict :=
  [("type".toList, text "message"), ("role".toList, text role), ("content".toList, .arr [.obj (itemBlock kind s)])]

def Call.responses (c : Call) : Dict :=
  [("type".toList, text "function_call"), ("call_id".toList, .str c.id), ("name".toList, .str c.name),
    ("arguments".toList, .str c.argumentsText)]

def ResultContent.responses : ResultContent → Json
  | .string s => .str s
  | .blocks texts => .arr (texts.map fun s => .obj (itemBlock "input_text" s))

def Result.responses (r : Result) : Dict :=
  [("type".toList, text "function_call_output"), ("call_id".toList, .str r.callId), ("output".toList, r.content.responses)]

/-- The items of a turn; an assistant that only calls has no message item. -/
def Turn.responses : Turn → List Dict
  | .user content => [itemMessage "user" "input_text" content]
  | .assistant content calls results _ =>
    (if content = [] ∧ calls ≠ [] then [] else [itemMessage "assistant" "output_text" content]) ++
      calls.map Call.responses ++ results.map Result.responses

def Conversation.responses (c : Conversation) : Dict :=
  [("instructions".toList, .str c.system), ("input".toList, .arr ((c.turns.flatMap Turn.responses).map .obj))]

end Forms

section Reading

variable (isPrintable : Char → Bool)

theorem mapM_map_eq {A B C : Type} {f : A → B} {g : B → Option C} {h : A → C} {xs : List A}
    (hg : ∀ x ∈ xs, g (f x) = some (h x)) : (xs.map f).mapM g = some (xs.map h) := by
  induction xs with
  | nil => rfl
  | cons x xs ih =>
    rw [map_cons, mapM_cons, hg x mem_cons_self, ih fun y hy => hg y (mem_cons_of_mem _ hy)]
    rfl

theorem joinLines_str (texts : List Text) : joinLines (texts.map .str) = some (join ['\n'] texts) := by
  have hparts : (texts.map Json.str).mapM asText = some (texts.map id) := mapM_map_eq fun _ _ => rfl
  rw [joinLines, hparts, map_id]
  rfl

theorem joinLines_singleton (s : Text) : joinLines [.str s] = some s := by
  have hone := joinLines_str [s]
  rwa [join_singleton] at hone

theorem textParts_blocks (texts : List Text) :
    textParts (texts.map fun s => .obj (textBlock s)) = texts.map .str := by
  induction texts with
  | nil => rfl
  | cons s texts ih =>
    simp only [textParts, map_cons] at ih ⊢
    rw [filterMap_cons_some, ih]
    simp [textBlock, Dict.get, List.lookup_cons, isText, text]

theorem extractText_blocks (texts : List Text) :
    extractText isPrintable (.arr (texts.map fun s => .obj (textBlock s))) = some (join ['\n'] texts) := by
  rw [extractText, textParts_blocks, joinLines_str]

theorem extractText_openai (content : ResultContent) :
    extractText isPrintable content.openai = some content.text := by
  cases content with
  | string s => rfl
  | blocks texts => exact extractText_blocks isPrintable texts

end Reading

section OpenAI

variable (isPrintable : Char → Bool)

theorem contentForTemplate_str (s : Text) : contentForTemplate isPrintable (.str s) = some (.str s) := by
  have himages : contentHasImages isPrintable (.str s) = false := by
    simp [contentHasImages, extractBlocks, textBlock, blockType, Dict.get, Dict.has, lower, pyStr, imageTypes, text,
      List.lookup_cons]
  have hvideos : contentHasVideos isPrintable (.str s) = false := by
    simp [contentHasVideos, extractBlocks, textBlock, blockType, Dict.get, Dict.has, lower, pyStr, videoTypes, text,
      List.lookup_cons]
  simp [contentForTemplate, himages, hvideos, extractText]

theorem convertCall_openai (c : Call) : convertCall (.obj c.openai) = some (.obj c.message) := by
  have hfunction : Dict.get c.openai "function" =
      some (.obj [("name".toList, .str c.name), ("arguments".toList, .str c.argumentsText)]) := rfl
  have harguments : Dict.get [("name".toList, .str c.name), ("arguments".toList, .str c.argumentsText)] "arguments" =
      some (.str c.argumentsText) := rfl
  simp only [convertCall, hfunction, convertFunction, harguments, loadArguments, c.reads, Option.getD_some]
  rfl

theorem parseChatMessage_plain {msg : Dict} {role : Json} {content : Text} (hrole : Dict.get msg "role" = some role)
    (hcontent : Dict.get msg "content" = some (.str content)) (hcalls : Dict.get msg "tool_calls" = none)
    (hreasoning : Dict.get msg "reasoning_content" = none) (htool : isText role "tool" = false) :
    parseChatMessage isPrintable msg = some (message role (.str content)) := by
  simp only [parseChatMessage, hrole, hcontent, hcalls, hreasoning, Option.getD_some, htool, Bool.false_eq_true,
    if_false, contentForTemplate_str]
  cases isText role "assistant" <;> rfl

theorem parseChatMessage_result (r : Result) : parseChatMessage isPrintable r.openai = some r.message := by
  have hrole : Dict.get r.openai "role" = some (text "tool") := rfl
  have hcontent : Dict.get r.openai "content" = some r.content.openai := rfl
  have hid : Dict.get r.openai "tool_call_id" = some (.str r.callId) := rfl
  have htool : isText (text "tool") "tool" = true := rfl
  have hassistant : isText (text "tool") "assistant" = false := rfl
  simp only [parseChatMessage, hrole, hcontent, hid, Option.getD_some, htool, hassistant, if_true, extractText_openai]
  rfl

theorem parseChatMessage_assistant (content : Text) (calls : List Call) :
    parseChatMessage isPrintable (openaiAssistant content calls) = some (assistantMessage content calls) := by
  by_cases hcalls : calls = []
  · subst hcalls
    exact parseChatMessage_plain isPrintable rfl rfl rfl rfl rfl
  · have hmsg : openaiAssistant content calls = message (text "assistant") (.str content) ++
        [("tool_calls".toList, .arr (calls.map fun c => .obj c.openai))] := by
      rw [openaiAssistant, if_neg hcalls]
    have hget : Dict.get (openaiAssistant content calls) "tool_calls" =
        some (.arr (calls.map fun c => .obj c.openai)) := by
      rw [hmsg]
      rfl
    have hrole : Dict.get (openaiAssistant content calls) "role" = some (text "assistant") := rfl
    have hcontent : Dict.get (openaiAssistant content calls) "content" = some (.str content) := rfl
    have hreasoning : Dict.get (openaiAssistant content calls) "reasoning_content" = none := by
      rw [hmsg]
      rfl
    have htool : isText (text "assistant") "tool" = false := rfl
    have hassistant : isText (text "assistant") "assistant" = true := rfl
    have hconverted : (calls.map fun c => .obj c.openai).mapM convertCall = some (calls.map fun c => .obj c.message) :=
      mapM_map_eq fun c _ => convertCall_openai c
    simp only [parseChatMessage, hrole, hcontent, hget, hreasoning, Option.getD_some, htool, hassistant,
      Bool.false_eq_true, if_false, contentForTemplate_str, hconverted]
    rw [assistantMessage, if_neg hcalls]
    rfl

theorem mapM_openai (t : Turn) :
    t.openai.mapM (parseChatMessage isPrintable) = some t.messages := by
  cases t with
  | user content =>
    have huser : parseChatMessage isPrintable (message (text "user") (.str content)) =
        some (message (text "user") (.str content)) := parseChatMessage_plain isPrintable rfl rfl rfl rfl rfl
    rw [Turn.openai, mapM_cons, huser]
    rfl
  | assistant content calls results answers =>
    have hresults : (results.map Result.openai).mapM (parseChatMessage isPrintable) = some (results.map Result.message) :=
      mapM_map_eq fun r _ => parseChatMessage_result isPrintable r
    rw [Turn.openai, mapM_cons, parseChatMessage_assistant, hresults]
    rfl

theorem mapM_flatMap {A B C : Type} {f : A → List B} {g : B → Option C} {h : A → List C} {xs : List A}
    (hg : ∀ x ∈ xs, (f x).mapM g = some (h x)) : (xs.flatMap f).mapM g = some (xs.flatMap h) := by
  induction xs with
  | nil => rfl
  | cons x xs ih =>
    rw [flatMap_cons, mapM_append, hg x mem_cons_self, ih fun y hy => hg y (mem_cons_of_mem _ hy)]
    rfl

/-- The OpenAI form carries every conversation. -/
theorem parseChatMessages_openai (c : Conversation) :
    parseChatMessages isPrintable c.openai = some c.messages := by
  have hsystem : (systemMessage c.system).mapM (parseChatMessage isPrintable) = some (systemMessage c.system) := by
    unfold systemMessage
    split
    · rfl
    · have hmsg : parseChatMessage isPrintable (message (text "system") (.str c.system)) =
          some (message (text "system") (.str c.system)) := parseChatMessage_plain isPrintable rfl rfl rfl rfl rfl
      rw [mapM_cons, hmsg]
      rfl
  have hmessages : Dict.get c.openai "messages" =
      some (.arr ((systemMessage c.system ++ c.turns.flatMap Turn.openai).map .obj)) := rfl
  have hall : ((systemMessage c.system ++ c.turns.flatMap Turn.openai).map Json.obj).mapM
      (eachMessage (parseChatMessage isPrintable)) =
      (systemMessage c.system ++ c.turns.flatMap Turn.openai).mapM (parseChatMessage isPrintable) := by
    rw [mapM_map]
    rfl
  rw [parseChatMessages, hmessages]
  simp only [hall, mapM_append, hsystem, mapM_flatMap fun t _ => mapM_openai isPrintable t]
  rfl

end OpenAI

section Compare

section

variable {A B : Type} {f g : A → List B} {xs : List A} (h : ∀ x ∈ xs, (g x).length ≤ (f x).length)
include h

theorem length_flatMap_le : (xs.flatMap g).length ≤ (xs.flatMap f).length := by
  induction xs with
  | nil => exact Nat.le_refl _
  | cons x xs ih =>
    rw [flatMap_cons, flatMap_cons, length_append, length_append]
    exact Nat.add_le_add (h x mem_cons_self) (ih fun y hy => h y (mem_cons_of_mem _ hy))

/-- Turn by turn, where no turn gets fewer messages. -/
theorem flatMap_eq_iff : xs.flatMap f = xs.flatMap g ↔ ∀ x ∈ xs, f x = g x := by
  induction xs with
  | nil => simp
  | cons x xs ih =>
    have hrest : ∀ y ∈ xs, (g y).length ≤ (f y).length := fun y hy => h y (mem_cons_of_mem _ hy)
    rw [flatMap_cons, flatMap_cons, forall_mem_cons, ← ih hrest]
    constructor
    · intro heq
      have hle := length_flatMap_le hrest
      have hhead := h x mem_cons_self
      have hlen := congrArg List.length heq
      rw [length_append, length_append] at hlen
      exact append_inj heq (by omega)
    · rintro ⟨hhead, htail⟩
      rw [hhead, htail]

end

end Compare

section Anthropic

variable (isPrintable : Char → Bool)

/-- What the adapter makes of a text: a billing header goes. -/
def unbilled (s : Text) : Text := if billingHeader.isPrefixOf s then [] else s

theorem unbilled_eq_iff {s : Text} : unbilled s = s ↔ billingHeader.isPrefixOf s = false := by
  unfold unbilled
  split
  · rename_i h
    rw [h]
    simp only [Bool.true_eq_false, iff_false]
    rintro rfl
    exact absurd h (by decide)
  · rename_i h
    exact iff_of_true rfl (eq_false_of_ne_true h)

def Turn.content : Turn → Text
  | .user content => content
  | .assistant content _ _ _ => content

def Turn.withContent (f : Text → Text) : Turn → Turn
  | .user content => .user (f content)
  | .assistant content calls results answers => .assistant (f content) calls results answers

theorem isBillingBlock_textBlock (s : Text) : isBillingBlock (textBlock s) = billingHeader.isPrefixOf s := by
  have htype : Dict.get (textBlock s) "type" = some (text "text") := rfl
  have htext : Dict.get (textBlock s) "text" = some (.str s) := rfl
  have hkind : isText (text "text") "text" = true := rfl
  simp only [isBillingBlock, htype, htext, Option.getD_some, hkind, Bool.true_and]

theorem stripBillingBlocks_texts (s : Text) :
    stripBillingBlocks [textBlock s] = if billingHeader.isPrefixOf s then [] else [textBlock s] := by
  simp only [stripBillingBlocks, filter_cons, filter_nil, isBillingBlock_textBlock]
  cases billingHeader.isPrefixOf s <;> rfl

theorem stripBillingBlocks_of_type {A : Type} {f : A → Dict} {xs : List A}
    (h : ∀ x ∈ xs, isText ((Dict.get (f x) "type").getD .null) "text" = false) :
    stripBillingBlocks (xs.map f) = xs.map f := by
  refine filter_eq_self.mpr fun block hblock => ?_
  obtain ⟨x, hx, rfl⟩ := mem_map.mp hblock
  simp [isBillingBlock, h x hx]

theorem extractBlocks_objs (blocks : List Dict) : extractBlocks isPrintable (.arr (blocks.map .obj)) = blocks := by
  rw [extractBlocks, filterMap_map]
  exact filterMap_some

theorem foldlM_calls (p : Parts) (calls : List Call) :
    (calls.map Call.anthropic).foldlM (assistantBlock isPrintable) p =
      some { p with tools := p.tools ++ calls.map Call.message } := by
  induction calls generalizing p with
  | nil =>
    rw [map_nil, foldlM_nil, map_nil, append_nil]
    rfl
  | cons c calls ih =>
    have hblock : assistantBlock isPrintable p c.anthropic = some (p.addTool c.message) := rfl
    rw [map_cons, foldlM_cons, hblock]
    change (calls.map Call.anthropic).foldlM (assistantBlock isPrintable) (p.addTool c.message) = _
    rw [ih]
    simp [Parts.addTool]

theorem foldlM_results (p : Parts) (results : List Result) :
    (results.map Result.anthropic).foldlM (userBlock isPrintable) p =
      some { p with tools := p.tools ++ results.map Result.message } := by
  induction results generalizing p with
  | nil =>
    rw [map_nil, foldlM_nil, map_nil, append_nil]
    rfl
  | cons r results ih =>
    have hblock : userBlock isPrintable p r.anthropic = some (p.addTool r.message) := by
      obtain ⟨callId, content⟩ := r
      cases content with
      | string s => rfl
      | blocks texts =>
        change ((extractText isPrintable (.arr (texts.map fun s => .obj (textBlock s)))).bind fun result =>
          some (p.addTool (toolMessage (.str result) (.str callId)))) = _
        rw [extractText_blocks]
        rfl
    rw [map_cons, foldlM_cons, hblock]
    change (results.map Result.anthropic).foldlM (userBlock isPrintable) (p.addTool r.message) = _
    rw [ih]
    simp [Parts.addTool]

theorem parseMessage_user (content : Text) :
    parseMessage isPrintable (message (text "user") (.str content)) =
      some [message (text "user") (.str (unbilled content))] := by
  have hrole : Dict.get (message (text "user") (.str content)) "role" = some (text "user") := rfl
  have hcontent : Dict.get (message (text "user") (.str content)) "content" = some (.str content) := rfl
  have hassistant : isText (text "user") "assistant" = false := rfl
  have huser : isText (text "user") "user" = true := rfl
  simp only [parseMessage, hrole, hcontent, Option.getD_some, hassistant, huser, Bool.false_eq_true, if_false, if_true,
    extractBlocks, stripBillingBlocks_texts, unbilled]
  cases billingHeader.isPrefixOf content with
  | true => rfl
  | false =>
    change ((joinLines [.str content]).map fun s => [message (text "user") (.str s)]).bind some = _
    rw [joinLines_singleton]
    rfl

theorem parseMessage_results {results : List Result} (h : results ≠ []) :
    parseMessage isPrintable (message (text "user") (.arr ((results.map Result.anthropic).map .obj))) =
      some (results.map Result.message) := by
  have hrole : Dict.get (message (text "user") (.arr ((results.map Result.anthropic).map .obj))) "role" =
      some (text "user") := rfl
  have hcontent : Dict.get (message (text "user") (.arr ((results.map Result.anthropic).map .obj))) "content" =
      some (.arr ((results.map Result.anthropic).map .obj)) := rfl
  have hassistant : isText (text "user") "assistant" = false := rfl
  have huser : isText (text "user") "user" = true := rfl
  have hkeep : stripBillingBlocks (results.map Result.anthropic) = results.map Result.anthropic :=
    stripBillingBlocks_of_type fun _ _ => rfl
  simp only [parseMessage, hrole, hcontent, Option.getD_some, hassistant, huser, Bool.false_eq_true, if_false, if_true,
    extractBlocks_objs, hkeep, foldlM_results, nil_append]
  simp [h]

theorem parseMessage_assistant (content : Text) (calls : List Call) :
    parseMessage isPrintable (message (text "assistant") (.arr ((assistantBlocks content calls).map .obj))) =
      some [assistantMessage (unbilled content) calls] := by
  have hrole : Dict.get (message (text "assistant") (.arr ((assistantBlocks content calls).map .obj))) "role" =
      some (text "assistant") := rfl
  have hcontent : Dict.get (message (text "assistant") (.arr ((assistantBlocks content calls).map .obj))) "content" =
      some (.arr ((assistantBlocks content calls).map .obj)) := rfl
  have hassistant : isText (text "assistant") "assistant" = true := rfl
  have hkeep : stripBillingBlocks (calls.map Call.anthropic) = calls.map Call.anthropic :=
    stripBillingBlocks_of_type fun _ _ => rfl
  have hstrip : stripBillingBlocks (assistantBlocks content calls) =
      (if unbilled content = [] then [] else [textBlock (unbilled content)]) ++ calls.map Call.anthropic := by
    have happ (xs ys : List Dict) : stripBillingBlocks (xs ++ ys) = stripBillingBlocks xs ++ stripBillingBlocks ys :=
      filter_append xs ys
    rw [assistantBlocks, happ, hkeep, unbilled]
    congr 1
    by_cases hempty : content = []
    · subst hempty
      rfl
    · rw [if_neg hempty, stripBillingBlocks_texts]
      cases billingHeader.isPrefixOf content
      · simp [hempty]
      · rfl
  have hfold : (stripBillingBlocks (assistantBlocks content calls)).foldlM (assistantBlock isPrintable) {} =
      some { texts := if unbilled content = [] then [] else [.str (unbilled content)]
             multimodal := if unbilled content = [] then [] else [.obj (textBlock (unbilled content))]
             hasMultimodal := false
             tools := calls.map Call.message } := by
    rw [hstrip, foldlM_append]
    split
    · change (calls.map Call.anthropic).foldlM (assistantBlock isPrintable) {} = _
      rw [foldlM_calls]
      rfl
    · change (calls.map Call.anthropic).foldlM (assistantBlock isPrintable) (Parts.addText {} (.str (unbilled content))) = _
      rw [foldlM_calls]
      rfl
  have hjoin : joinLines (if unbilled content = [] then [] else [.str (unbilled content)]) = some (unbilled content) := by
    split
    · rename_i hempty
      rw [hempty]
      rfl
    · exact joinLines_singleton (unbilled content)
  simp only [parseMessage, hrole, hcontent, Option.getD_some, hassistant, if_true, extractBlocks_objs]
  rw [hfold]
  change ((joinLines (if unbilled content = [] then [] else [.str (unbilled content)])).map Json.str).bind _ = _
  rw [hjoin]
  simp only [assistantMessage, map_eq_nil_iff, map_map]
  rfl

/-- What the Anthropic adapter makes of a turn. -/
theorem flatten_anthropic (t : Turn) :
    (t.anthropic.mapM (parseMessage isPrintable)).map flatten = some (t.withContent unbilled).messages := by
  cases t with
  | user content =>
    rw [Turn.anthropic, mapM_cons, parseMessage_user]
    rfl
  | assistant content calls results answers =>
    rw [Turn.anthropic, mapM_cons, parseMessage_assistant]
    by_cases hresults : results = []
    · subst hresults
      rfl
    · rw [if_neg hresults, mapM_cons, parseMessage_results isPrintable hresults]
      simp [Turn.withContent, Turn.messages]

theorem flatten_mapM_flatMap {A B C : Type} {f : A → List B} {g : B → Option (List C)} {h : A → List C} {xs : List A}
    (hg : ∀ x ∈ xs, ((f x).mapM g).map flatten = some (h x)) :
    ((xs.flatMap f).mapM g).map flatten = some (xs.flatMap h) := by
  induction xs with
  | nil => rfl
  | cons x xs ih =>
    obtain ⟨first, hfirst, hx⟩ := Option.map_eq_some_iff.mp (hg x mem_cons_self)
    obtain ⟨rest, hrest, hxs⟩ := Option.map_eq_some_iff.mp (ih fun y hy => hg y (mem_cons_of_mem _ hy))
    rw [flatMap_cons, mapM_append, hfirst, hrest, flatMap_cons, ← hx, ← hxs]
    simp

theorem systemMessages_anthropic (s : Text) :
    systemMessages isPrintable (systemField (.str s)) = some (systemMessage (unbilled s)) := by
  change systemMessages isPrintable (.str (unbilled s)) = _
  have hcontent := contentForTemplate_str isPrintable (unbilled s)
  unfold contentForTemplate at hcontent
  unfold systemMessages
  split
  · rename_i hmedia
    rw [if_pos hmedia] at hcontent
    cases hcontent
  · rfl

/-- What the Anthropic adapter makes of a conversation: billing headers go, the rest stays. -/
theorem parseMessages_anthropic (c : Conversation) :
    parseMessages isPrintable c.anthropic =
      some (systemMessage (unbilled c.system) ++ c.turns.flatMap fun t => (t.withContent unbilled).messages) := by
  have hsystem : Dict.get c.anthropic "system" = some (.str c.system) := rfl
  have hmessages : Dict.get c.anthropic "messages" = some (.arr ((c.turns.flatMap Turn.anthropic).map .obj)) := rfl
  have hall : ((c.turns.flatMap Turn.anthropic).map Json.obj).mapM (eachMessage (parseMessage isPrintable)) =
      (c.turns.flatMap Turn.anthropic).mapM (parseMessage isPrintable) := by
    rw [mapM_map]
    rfl
  have hturns : ((c.turns.flatMap Turn.anthropic).mapM (parseMessage isPrintable)).map flatten =
      some (c.turns.flatMap fun t => (t.withContent unbilled).messages) :=
    flatten_mapM_flatMap fun t _ => flatten_anthropic isPrintable t
  obtain ⟨chat, hchat, hflat⟩ := Option.map_eq_some_iff.mp hturns
  simp only [parseMessages, hsystem, hmessages, Option.getD_some, systemMessages_anthropic, hall, hchat]
  change some (systemMessage (unbilled c.system) ++ chat.flatten) = _
  rw [hflat]

/-- The text of an assistant message is one of its fields. -/
theorem assistantMessage_inj {a b : Text} {calls : List Call} :
    assistantMessage a calls = assistantMessage b calls ↔ a = b := by
  constructor
  · intro heq
    have hcontent : some (Json.str a) = some (Json.str b) := congrArg (fun d => Dict.get d "content") heq
    exact Json.str.inj (Option.some.inj hcontent)
  · rintro rfl
    rfl

theorem withContent_messages_iff (t : Turn) :
    (t.withContent unbilled).messages = t.messages ↔ billingHeader.isPrefixOf t.content = false := by
  rw [← unbilled_eq_iff]
  cases t with
  | user content => simp [Turn.withContent, Turn.messages, Turn.content, message]
  | assistant content calls results answers =>
    simp only [Turn.withContent, Turn.messages, Turn.content, List.cons.injEq, and_true, assistantMessage_inj]

theorem length_withContent_messages (t : Turn) : t.messages.length = (t.withContent unbilled).messages.length := by
  cases t <;> rfl

/-- The Anthropic form carries a conversation exactly where no text of it is a billing header. -/
theorem anthropic_intact_iff (c : Conversation) :
    parseMessages isPrintable c.anthropic = some c.messages ↔
      billingHeader.isPrefixOf c.system = false ∧ ∀ t ∈ c.turns, billingHeader.isPrefixOf t.content = false := by
  have hturns : c.turns.flatMap (fun t => (t.withContent unbilled).messages) = c.turns.flatMap Turn.messages ↔
      ∀ t ∈ c.turns, billingHeader.isPrefixOf t.content = false := by
    rw [flatMap_eq_iff fun t _ => Nat.le_of_eq (length_withContent_messages t)]
    exact forall₂_congr fun t _ => withContent_messages_iff t
  have hlength : (c.turns.flatMap fun t => (t.withContent unbilled).messages).length =
      (c.turns.flatMap Turn.messages).length :=
    Nat.le_antisymm (length_flatMap_le fun t _ => Nat.le_of_eq (length_withContent_messages t).symm)
      (length_flatMap_le fun t _ => Nat.le_of_eq (length_withContent_messages t))
  rw [parseMessages_anthropic, Option.some.injEq, Conversation.messages, ← unbilled_eq_iff, ← hturns]
  constructor
  · intro heq
    obtain ⟨hsystem, hrest⟩ := append_inj' heq hlength
    refine ⟨?_, hrest⟩
    unfold systemMessage at hsystem
    split at hsystem
    · rename_i hempty
      split at hsystem
      · rename_i hnone
        rw [hempty, hnone]
      · cases hsystem
    · split at hsystem
      · cases hsystem
      · simpa [message] using hsystem
  · rintro ⟨hsystem, hrest⟩
    rw [hsystem, hrest]

end Anthropic

end ChatConversation
