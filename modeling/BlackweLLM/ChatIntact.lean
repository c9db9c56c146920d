import BlackweLLM.ChatConversation

/-!
# Conversations that reach the prompt

Where the Responses adapter and the DSV4 encoder
(`server/formats/encoding_dsv4.py`) keep the turns of a conversation.
-/

namespace ChatIntact

open List JsonText ChatContent ChatForms ChatConversation

section Repr

variable (isPrintable : Char → Bool)

theorem length_reprChar_pos (quote c : Char) : 0 < (reprChar isPrintable quote c).length := by
  unfold reprChar
  repeat' split
  all_goals simp

theorem length_reprText (s : Text) : s.length < (reprText isPrintable s).length := by
  have hbody (quote : Char) (cs : Text) : cs.length ≤ (cs.flatMap (reprChar isPrintable quote)).length := by
    induction cs with
    | nil => exact Nat.le_refl _
    | cons c cs ih =>
      have hpos := length_reprChar_pos isPrintable quote c
      rw [flatMap_cons, length_append, length_cons]
      omega
  unfold reprText
  dsimp only
  have := hbody (if '\'' ∈ s ∧ '"' ∉ s then '"' else '\'') s
  rw [length_cons, length_append]
  omega

/-- The `repr` of a text block is longer than its text. -/
theorem length_repr_itemBlock (kind : String) (s : Text) :
    s.length < (pyRepr isPrintable (.obj (itemBlock kind s))).length := by
  have hs := length_reprText isPrintable s
  simp only [itemBlock, text, pyRepr, reprMembers, join_cons_cons, join_singleton, length_cons, length_append]
  omega

/-- The `repr` of a list of text blocks is longer than the lines of their texts. -/
theorem length_repr_blocks (kind : String) (texts : List Text) :
    (join ['\n'] texts).length < (pyRepr isPrintable (.arr (texts.map fun s => .obj (itemBlock kind s)))).length := by
  have hparts : (join ['\n'] texts).length ≤
      (join comma (reprElements isPrintable (texts.map fun s => .obj (itemBlock kind s)))).length := by
    induction texts with
    | nil => exact Nat.le_refl _
    | cons s texts ih =>
      have hs := length_repr_itemBlock isPrintable kind s
      cases texts with
      | nil =>
        simp only [map_cons, map_nil, reprElements, join_singleton]
        omega
      | cons next texts =>
        simp only [map_cons, reprElements, join_cons_cons, comma, length_append, length_cons,
          length_nil] at ih ⊢
        omega
  simp only [pyRepr, length_cons, length_append]
  omega

end Repr

section Responses

variable (isPrintable : Char → Bool) (freshId : Dict → Text)

/-- The messages that the Responses adapter makes of a turn: each call stands alone. -/
def responsesMessages : Turn → List Dict
  | .user content => [message (text "user") (.str content)]
  | .assistant content calls results _ =>
    (if content = [] ∧ calls ≠ [] then [] else [message (text "assistant") (.str content)]) ++
      calls.map (fun c => assistantMessage [] [c]) ++
      results.map fun r => toolMessage (.str (pyStr isPrintable r.content.responses)) (.str r.callId)

theorem blockText_itemBlock (kind : String) (s : Text) : blockText isPrintable (.obj (itemBlock kind s)) = s := by
  have htext : Dict.get (itemBlock kind s) "text" = some (.str s) := rfl
  have hrefusal : Dict.get (itemBlock kind s) "refusal" = none := rfl
  simp only [blockText, htext, hrefusal, Option.getD_some, Option.getD_none]
  cases s <;> rfl

section

variable {kind : String} (hkind : kind = "input_text" ∨ kind = "output_text") (s : Text)
include hkind

/-- A text block of an item, whichever side it is from. -/
theorem inputBlock_itemBlock : inputBlock isPrintable (.obj (itemBlock kind s)) = [textBlock s] ∨
      inputBlock isPrintable (.obj (itemBlock kind s)) = [] ∧ s = [] := by
  obtain rfl | rfl := hkind
  · have hblock : inputBlock isPrintable (.obj (itemBlock "input_text" s)) =
        [textBlock (blockText isPrintable (.obj (itemBlock "input_text" s)))] := rfl
    rw [hblock, blockText_itemBlock]
    exact .inl rfl
  · have hblock : inputBlock isPrintable (.obj (itemBlock "output_text" s)) =
        textOf isPrintable (.obj (itemBlock "output_text" s)) := rfl
    rw [hblock, textOf, blockText_itemBlock]
    by_cases hempty : s = []
    · exact .inr ⟨if_pos hempty, hempty⟩
    · exact .inl (if_neg hempty)

theorem inputContent_itemBlock : inputContent isPrintable (.arr [.obj (itemBlock kind s)]) = .str s := by
  have himages : contentHasImages isPrintable (.arr [.obj (textBlock s)]) = false := rfl
  have hvideos : contentHasVideos isPrintable (.arr [.obj (textBlock s)]) = false := rfl
  have htext : Dict.get (textBlock s) "text" = some (.str s) := rfl
  obtain hblock | ⟨hblock, rfl⟩ := inputBlock_itemBlock isPrintable hkind s
  · simp only [inputContent, flatMap_cons, flatMap_nil, hblock, append_nil, map_cons, map_nil,
      himages, hvideos, Bool.or_self, Bool.false_eq_true, if_false, filterMap_cons, filterMap_nil, htext]
    by_cases hempty : s = []
    · subst hempty
      rfl
    · rw [if_neg hempty]
      simp
  · simp only [inputContent, flatMap_cons, flatMap_nil, hblock, append_nil]
    rfl

end

theorem parseItem_message {role kind : String} (hrole : isText (text role) "developer" = false)
    (hkind : kind = "input_text" ∨ kind = "output_text") (s : Text) :
    parseItem isPrintable freshId (.obj (itemMessage role kind s)) = [message (text role) (.str s)] := by
  have hitem : parseItem isPrintable freshId (.obj (itemMessage role kind s)) =
      [message (if isText (text role) "developer" then text "system" else text role)
        (inputContent isPrintable (.arr [.obj (itemBlock kind s)]))] := rfl
  rw [hitem, hrole, inputContent_itemBlock isPrintable hkind]
  rfl

theorem parseItem_call (c : Call) : parseItem isPrintable freshId (.obj c.responses) = [assistantMessage [] [c]] := by
  have hitem : parseItem isPrintable freshId (.obj c.responses) =
      [message (text "assistant") (text "") ++ [("tool_calls".toList, .arr [.obj (functionCall
        (pyOr (.str c.id) (.str (freshId c.responses))) (.str c.name) (loadArguments (.str c.argumentsText)))])]] := rfl
  have hid : pyOr (.str c.id) (.str (freshId c.responses)) = .str c.id := by
    have htruthy : truthy (.str c.id) = true := by simp [truthy, c.id_ne]
    rw [pyOr, if_pos htruthy]
  have harguments : loadArguments (.str c.argumentsText) = .obj c.arguments := by
    simp only [loadArguments, c.reads, Option.getD_some]
  rw [hitem, hid, harguments]
  rfl

theorem parseItem_result (r : Result) : parseItem isPrintable freshId (.obj r.responses) =
    [toolMessage (.str (pyStr isPrintable r.content.responses)) (.str r.callId)] := by
  rfl

theorem flatMap_singleton {A B : Type} {f : Json → List B} {g : A → Dict} {h : A → B} {xs : List A}
    (hf : ∀ x ∈ xs, f (.obj (g x)) = [h x]) : ((xs.map g).map Json.obj).flatMap f = xs.map h := by
  rw [map_map, flatMap_map, ← flatMap_pure_eq_map]
  exact flatMap_congr hf

theorem parseItem_turn (t : Turn) :
    (t.responses.map Json.obj).flatMap (parseItem isPrintable freshId) = responsesMessages isPrintable t := by
  cases t with
  | user content =>
    rw [Turn.responses, map_singleton, List.flatMap_singleton,
      parseItem_message isPrintable freshId rfl (.inl rfl)]
    rfl
  | assistant content calls results answers =>
    rw [Turn.responses, map_append, map_append, flatMap_append, flatMap_append,
      flatMap_singleton fun c _ => parseItem_call isPrintable freshId c,
      flatMap_singleton fun r _ => parseItem_result isPrintable freshId r]
    have hmessage : ((if content = [] ∧ calls ≠ [] then [] else [itemMessage "assistant" "output_text" content]).map
        Json.obj).flatMap (parseItem isPrintable freshId) =
        if content = [] ∧ calls ≠ [] then [] else [message (text "assistant") (.str content)] := by
      split
      · rfl
      · rw [map_singleton, List.flatMap_singleton, parseItem_message isPrintable freshId rfl (.inr rfl)]
    rw [hmessage]
    rfl

/-- What the Responses adapter makes of a conversation. -/
theorem parseInput_responses (c : Conversation) :
    parseInput isPrintable freshId c.responses =
      systemMessage c.system ++ c.turns.flatMap (responsesMessages isPrintable) := by
  have hinput : Dict.get c.responses "input" = some (.arr ((c.turns.flatMap Turn.responses).map .obj)) := rfl
  have hinstructions : Dict.get c.responses "instructions" = some (.str c.system) := rfl
  have hall : ((c.turns.flatMap Turn.responses).map Json.obj).flatMap (parseItem isPrintable freshId) =
      c.turns.flatMap (responsesMessages isPrintable) := by
    rw [map_flatMap, flatMap_assoc]
    exact flatMap_congr fun t _ => parseItem_turn isPrintable freshId t
  simp only [parseInput, hinput, hinstructions, Option.getD_some, hall]
  rfl

/-- A turn that the Responses items carry in one message, and its results as strings. -/
def Single : Turn → Prop
  | .user _ => True
  | .assistant content calls results _ =>
    (calls = [] ∨ content = [] ∧ calls.length = 1) ∧ ∀ r ∈ results, ∃ s, r.content = .string s

theorem pyStr_responses_iff (content : ResultContent) :
    pyStr isPrintable content.responses = content.text ↔ ∃ s, content = .string s := by
  cases content with
  | string s => exact iff_of_true rfl ⟨s, rfl⟩
  | blocks texts =>
    refine iff_of_false (fun heq => ?_) nofun
    have hlt := length_repr_blocks isPrintable "input_text" texts
    exact absurd (congrArg List.length heq) (Nat.ne_of_gt hlt)

theorem length_messages_le (t : Turn) : t.messages.length ≤ (responsesMessages isPrintable t).length := by
  cases t with
  | user content => exact Nat.le_refl _
  | assistant content calls results answers =>
    simp only [Turn.messages, responsesMessages, length_cons, length_append, length_map]
    split
    · rename_i h
      have hpos := length_pos_iff.mpr h.2
      omega
    · rw [length_singleton]
      omega

theorem toolMessage_inj {a b : Text} {id : Json} : toolMessage (.str a) id = toolMessage (.str b) id ↔ a = b := by
  constructor
  · intro heq
    have hcontent : some (Json.str a) = some (Json.str b) := congrArg (fun d => Dict.get d "content") heq
    exact Json.str.inj (Option.some.inj hcontent)
  · rintro rfl
    rfl

theorem results_iff (results : List Result) :
    (results.map fun r => toolMessage (.str (pyStr isPrintable r.content.responses)) (.str r.callId)) =
        results.map Result.message ↔ ∀ r ∈ results, ∃ s, r.content = .string s := by
  rw [map_inj_left]
  exact forall₂_congr fun r _ => toolMessage_inj.trans (pyStr_responses_iff isPrintable r.content)

theorem responsesMessages_iff (t : Turn) : responsesMessages isPrintable t = t.messages ↔ Single t := by
  cases t with
  | user content => exact iff_of_true rfl trivial
  | assistant content calls results answers =>
    rw [Single, ← results_iff isPrintable results, responsesMessages, Turn.messages]
    constructor
    · intro heq
      have hsplit : _ = [assistantMessage content calls] ++ results.map Result.message := heq
      obtain ⟨hhead, hresults⟩ := append_inj' hsplit (by simp)
      refine ⟨?_, hresults⟩
      have hlength := congrArg List.length hhead
      rw [length_append, length_map, length_singleton] at hlength
      split at hlength
      · rename_i h
        exact .inr ⟨h.1, by simpa using hlength⟩
      · rw [length_singleton] at hlength
        exact .inl (length_eq_zero_iff.mp (by omega))
    · rintro ⟨hcalls, hresults⟩
      rw [hresults, ← singleton_append (x := assistantMessage content calls)]
      congr 1
      obtain rfl | ⟨rfl, hone⟩ := hcalls
      · simp [assistantMessage]
      · obtain ⟨c, rfl⟩ := length_eq_one_iff.mp hone
        rfl

/-- The Responses form carries a conversation exactly where each assistant turn is text alone or one call alone,
and each result is a string. -/
theorem responses_intact_iff (c : Conversation) :
    parseInput isPrintable freshId c.responses = c.messages ↔ ∀ t ∈ c.turns, Single t := by
  rw [parseInput_responses, Conversation.messages, append_cancel_left_eq,
    flatMap_eq_iff fun t _ => length_messages_le isPrintable t]
  exact forall₂_congr fun t _ => responsesMessages_iff isPrintable t

end Responses

section Dsml

variable (isPrintable : Char → Bool)

def dsmlToken : Text := "｜DSML｜".toList

/-- The parameters that `encode_arguments_to_dsml` writes. What is not a text fails in `json.loads` and goes in
whole. -/
def dsmlArguments (arguments : Json) : Option Dict :=
  match arguments with
  | .str s =>
    match loads s with
    | some (.obj members) => some members
    | some _ => none
    | none => some [("arguments".toList, .str s)]
  | v => some [("arguments".toList, v)]

/-- A parameter's value as it is written, and whether it is a string. -/
def dsmlValue : Json → Text × Bool
  | .str s => (s, true)
  | v => (dumps v, false)

def dsmlParameter (parameter : Text × Json) : Text :=
  let value := dsmlValue parameter.2
  '<' :: dsmlToken ++ "parameter name=\"".toList ++ parameter.1 ++ "\" string=\"".toList ++
    (if value.2 then "true".toList else "false".toList) ++ "\">".toList ++ value.1 ++
    "</".toList ++ dsmlToken ++ "parameter>".toList

def encodeArgumentsToDsml (arguments : Json) : Option Text :=
  (dsmlArguments arguments).map fun parameters => join ['\n'] (parameters.map dsmlParameter)

/-- `tool_call_template` over a call of the chat template. -/
def toolCallText (call : Dict) : Option Text :=
  match Dict.get call "function" with
  | some (.obj fn) => do
    let name ← Dict.get fn "name"
    let arguments ← Dict.get fn "arguments"
    let encoded ← encodeArgumentsToDsml arguments
    pure ('<' :: dsmlToken ++ "invoke name=\"".toList ++ pyStr isPrintable name ++ "\">\n".toList ++ encoded ++
      "\n</".toList ++ dsmlToken ++ "invoke>".toList)
  | _ => none

/-- `tool_calls_template`: what an assistant message renders for its calls. -/
def toolCallsText (calls : List Dict) : Option Text := do
  let texts ← calls.mapM (toolCallText isPrintable)
  pure ('<' :: dsmlToken ++ "tool_calls>\n".toList ++ join ['\n'] texts ++ "\n</".toList ++ dsmlToken ++
    "tool_calls>".toList)

/-- `decode_dsml_to_arguments`: the JSON text of the parameters. -/
def decodeDsmlToArguments (parameters : Dict) : Text :=
  '{' :: (join comma (parameters.map fun parameter =>
    let value := dsmlValue parameter.2
    dumpString parameter.1 ++ (": ".toList ++ if value.2 then dumpString value.1 else value.1)) ++ ['}'])

def Call.parameters (c : Call) : Dict := (dsmlArguments (.obj c.arguments)).getD []

/-- `parse_tool_calls` on the block of `calls`: the names, and the arguments that their parameters decode to. -/
def Inverts (parseToolCalls : Text → Option (List (Text × Text))) (calls : List Call) : Prop :=
  ∀ block, toolCallsText isPrintable (calls.map Call.message) = some block →
    parseToolCalls block = some (calls.map fun c => (c.name, decodeDsmlToArguments (Call.parameters c)))

/-- The calls are rendered, and read back under their names and with their argument objects. -/
def ReadsBack (parseToolCalls : Text → Option (List (Text × Text))) (calls : List Call) : Prop :=
  ∃ block read, toolCallsText isPrintable (calls.map Call.message) = some block ∧ parseToolCalls block = some read ∧
    read.map (fun r => (r.1, loads r.2)) = calls.map fun c => (c.name, some (.obj c.arguments))

/-- The arguments of a call come back inside an object of their own. -/
theorem loads_parameters (c : Call) :
    loads (decodeDsmlToArguments (Call.parameters c)) = some (.obj [("arguments".toList, .obj c.arguments)]) := by
  have htext : decodeDsmlToArguments (Call.parameters c) = dumps (.obj [("arguments".toList, .obj c.arguments)]) := rfl
  rw [htext]
  refine loads_dumps ⟨?_, c.distinct, trivial⟩
  exact nodup_singleton _

theorem wrapped_ne (arguments : Dict) : Json.obj [("arguments".toList, .obj arguments)] ≠ .obj arguments := by
  intro heq
  have hsize := congrArg Json.size heq
  simp only [Json.size, Json.sizeMembers] at hsize
  omega

/-- No call is read back with its own arguments. -/
theorem not_readsBack {parseToolCalls : Text → Option (List (Text × Text))} {calls : List Call} (hcalls : calls ≠ [])
    (hparse : Inverts isPrintable parseToolCalls calls) : ¬ReadsBack isPrintable parseToolCalls calls := by
  rintro ⟨block, read, hblock, hread, heq⟩
  rw [hparse block hblock] at hread
  cases hread
  cases calls with
  | nil => exact hcalls rfl
  | cons c calls =>
    rw [map_cons, map_cons, map_cons] at heq
    have hhead := (List.cons.inj heq).1
    rw [loads_parameters] at hhead
    exact wrapped_ne c.arguments (Option.some.inj (Prod.mk.inj hhead).2)

end Dsml

section Intact

variable (isPrintable : Char → Bool) (freshId : Dict → Text)

def calls : Turn → List Call
  | .user _ => []
  | .assistant _ calls _ _ => calls

/-- What each adapter and the DSV4 encoder keep of a conversation. -/
theorem conversation_intact_iff (parseToolCalls : Text → Option (List (Text × Text))) (c : Conversation)
    (hparse : ∀ t ∈ c.turns, calls t ≠ [] → Inverts isPrintable parseToolCalls (calls t)) :
    parseChatMessages isPrintable c.openai = some c.messages ∧
      (parseMessages isPrintable c.anthropic = some c.messages ↔
        billingHeader.isPrefixOf c.system = false ∧ ∀ t ∈ c.turns, billingHeader.isPrefixOf t.content = false) ∧
      (parseInput isPrintable freshId c.responses = c.messages ↔ ∀ t ∈ c.turns, Single t) ∧
      ((∀ t ∈ c.turns, calls t ≠ [] → ReadsBack isPrintable parseToolCalls (calls t)) ↔
        ∀ t ∈ c.turns, calls t = []) := by
  refine ⟨parseChatMessages_openai isPrintable c, anthropic_intact_iff isPrintable c,
    responses_intact_iff isPrintable freshId c, ?_⟩
  refine forall₂_congr fun t ht => ?_
  constructor
  · intro hreads
    by_contra hcalls
    exact not_readsBack isPrintable hcalls (hparse t ht hcalls) (hreads hcalls)
  · intro hnone hcalls
    exact absurd hnone hcalls

def addCall : Call :=
  Call.ofArguments "call_1".toList "add".toList [("a".toList, .num ⟨"1".toList, by decide⟩)] (by decide)
    ⟨nodup_singleton _, trivial, trivial⟩

def addConversation : Conversation :=
  ⟨"Be brief.".toList, [.user "1 + 1?".toList,
    .assistant "Adding.".toList [addCall] [⟨"call_1".toList, .string "2".toList⟩] (by simp [addCall, Call.ofArguments])]⟩

/-- What the encoder's reader gives for that conversation's block. -/
def addReader (_ : Text) : Option (List (Text × Text)) :=
  some [("add".toList, "\x7b\"arguments\": \x7b\"a\": 1\x7d\x7d".toList)]

theorem inverts_add : Inverts (fun _ => true) addReader [addCall] := by
  intro block _
  rfl

theorem addConversation_unbilled :
    billingHeader.isPrefixOf addConversation.system = false ∧
      ∀ t ∈ addConversation.turns, billingHeader.isPrefixOf t.content = false := by
  refine ⟨by decide, forall_mem_cons.mpr ⟨by decide, forall_mem_cons.mpr ⟨by decide, nofun⟩⟩⟩

theorem conversation_intact_iff_add :
    parseChatMessages (fun _ => true) addConversation.openai = some addConversation.messages ∧
      parseMessages (fun _ => true) addConversation.anthropic = some addConversation.messages ∧
      ¬∀ t ∈ addConversation.turns, calls t ≠ [] → ReadsBack (fun _ => true) addReader (calls t) := by
  have hparse : ∀ t ∈ addConversation.turns, calls t ≠ [] → Inverts (fun _ => true) addReader (calls t) :=
    forall_mem_cons.mpr ⟨fun hcalls => absurd rfl hcalls,
      forall_mem_cons.mpr ⟨fun _ => inverts_add, nofun⟩⟩
  obtain ⟨hopenai, hanthropic, -, hdsml⟩ :=
    conversation_intact_iff (fun _ => true) (fun _ => []) addReader addConversation hparse
  refine ⟨hopenai, hanthropic.mpr addConversation_unbilled, fun hreads => ?_⟩
  have hnone := hdsml.mp hreads _ (mem_cons_of_mem _ mem_cons_self)
  cases hnone

/-- A turn with a text and a call comes apart in the Responses form, and no reader gives the DSV4 call back. -/
theorem addConversation_split :
    parseInput (fun _ => true) (fun _ => []) addConversation.responses ≠ addConversation.messages ∧
      ∀ parseToolCalls, Inverts (fun _ => true) parseToolCalls [addCall] →
        ¬ReadsBack (fun _ => true) parseToolCalls [addCall] := by
  refine ⟨fun heq => ?_, fun parseToolCalls hparse => not_readsBack _ (cons_ne_nil _ _) hparse⟩
  have hsingle := (responses_intact_iff _ _ addConversation).mp heq _ (mem_cons_of_mem _ mem_cons_self)
  obtain hnone | ⟨hempty, -⟩ := hsingle.1
  · cases hnone
  · cases hempty

end Intact

end ChatIntact
