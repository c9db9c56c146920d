import BlackweLLM.PatternScan
import BlackweLLM.ToolCalls
import BlackweLLM.ToolValues

/-!
# The registered tool parsers

`qwen3_coder.py` and `poolside_v1.py` against the blocks that the chat
templates render: strings as they are, every other value as JSON, and white
space between the tags and around the values.
-/

namespace ToolParsers

open List TextScan PatternScan ToolValues
open ToolCalls (ToolCallParser)
open JsonText (Text Json setMembers setMember dumps)
open PythonText (pyStrip)

structure Call where
  name : Text
  arguments : List (Text × Json)

section Source

/-- `{k.strip(): parse_value(v.strip()) for k, v in pairs}`. -/
def parseArguments (pairs : List (Text × Text)) : List (Text × Json) :=
  setMembers (pairs.map fun pair => (pyStrip pair.1, parseValue (pyStrip pair.2)))

section Qwen3Coder

def functionOpen : Text := "<function=".toList
def functionClose : Text := "</function>".toList
def parameterOpen : Text := "<parameter=".toList
def parameterClose : Text := "</parameter>".toList

/-- `openTag([^>]+)>(.*?)closeTag` at the start of a text, and what stands behind the match. -/
def matchTag (openTag closeTag text : Text) : Option ((Text × Text) × Text) := do
  let behind ← strike openTag text
  let (name, behind) ← cut ['>'] behind
  if name = [] then none
  else
    let (body, rest) ← cut closeTag behind
    some ((name, body), rest)

def matchFunction : Text → Option ((Text × Text) × Text) := matchTag functionOpen functionClose

/-- The `\s*` around the value take white space that `strip` takes anyway. -/
def matchParameter : Text → Option ((Text × Text) × Text) := matchTag parameterOpen parameterClose

def qwen3Coder : ToolCallParser Call where
  openTag_ne_nil := ToolCalls.toolCallOpen_ne_nil
  parseBlock interior :=
    (search matchFunction interior).map fun found => ⟨pyStrip found.1, parseArguments (findAll matchParameter found.2)⟩
  findNameBoundary interior _ := do
    let start ← find functionOpen interior
    let stop ← PythonText.findFrom ['>'] interior (start + functionOpen.length)
    let name := pyStrip ((interior.take stop).drop (start + functionOpen.length))
    if name = [] then none else some name

end Qwen3Coder

section PoolsideV1

def argKeyOpen : Text := "<arg_key>".toList
def argKeyClose : Text := "</arg_key>".toList
def argValueOpen : Text := "<arg_value>".toList
def argValueClose : Text := "</arg_value>".toList

def isIdentifierStart (c : Char) : Bool := ('A' ≤ c ∧ c ≤ 'Z') ∨ ('a' ≤ c ∧ c ≤ 'z') ∨ c = '_'

def isIdentifierChar (c : Char) : Bool := isIdentifierStart c || c.isDigit || c == '.' || c == '-'

/-- `^[A-Za-z_][A-Za-z0-9_.\-]*$` on a text without outer white space. -/
def isIdentifier : Text → Bool
  | [] => false
  | c :: cs => isIdentifierStart c && cs.all isIdentifierChar

/-- `<arg_key>([^<]*)</arg_key>\s*<arg_value>(.*?)</arg_value>` at the start of a text. -/
def matchArg (text : Text) : Option ((Text × Text) × Text) := do
  let behind ← strike argKeyOpen text
  let key := behind.takeWhile (· != '<')
  let behind ← strike argKeyClose (behind.dropWhile (· != '<'))
  let behind ← strike argValueOpen (behind.dropWhile PythonText.isSpace)
  let (value, rest) ← cut argValueClose behind
  some ((key, value), rest)

def poolsideV1 : ToolCallParser Call where
  openTag_ne_nil := ToolCalls.toolCallOpen_ne_nil
  parseBlock interior :=
    let firstArg := find argKeyOpen interior
    let name := pyStrip (match firstArg with
      | some i => interior.take i
      | none => interior)
    let argsBlock := match firstArg with
      | some i => interior.drop i
      | none => []
    if isIdentifier name then some ⟨name, parseArguments (findAll matchArg argsBlock)⟩ else none
  findNameBoundary interior closed :=
    match find argKeyOpen interior with
    | some i => if isIdentifier (pyStrip (interior.take i)) then some (pyStrip (interior.take i)) else none
    | none => if closed ∧ isIdentifier (pyStrip interior) then some (pyStrip interior) else none

end PoolsideV1

/-- `_PARSERS`, by name. -/
inductive Registered where
  | poolsideV1
  | qwen3Coder
  deriving DecidableEq

def Registered.parser : Registered → ToolCallParser Call
  | .poolsideV1 => ToolParsers.poolsideV1
  | .qwen3Coder => ToolParsers.qwen3Coder

end Source

section Template

/-- The white space that a template puts between tags and around values. -/
structure Layout where
  gap : Text
  pad : Text
  gap_space : ∀ c ∈ gap, PythonText.isSpace c
  pad_space : ∀ c ∈ pad, PythonText.isSpace c

variable (layout : Layout)

def renderParameter (a : Text × Json) : Text :=
  parameterOpen ++ (a.1 ++ (['>'] ++ (layout.pad ++ renderValue a.2 ++ layout.pad ++ parameterClose)))

def renderArg (a : Text × Json) : Text :=
  argKeyOpen ++ (a.1 ++ (argKeyClose ++ (layout.gap ++ (argValueOpen ++
    (layout.pad ++ renderValue a.2 ++ layout.pad ++ argValueClose)))))

def renderArguments : Registered → List (Text × Json) → Text
  | .poolsideV1, arguments => arguments.flatMap fun a => renderArg layout a ++ layout.gap
  | .qwen3Coder, arguments => layout.gap ++ arguments.flatMap fun a => renderParameter layout a ++ layout.gap

def renderCall : Registered → Call → Text
  | .poolsideV1, call =>
    layout.gap ++ call.name ++ layout.gap ++ renderArguments layout .poolsideV1 call.arguments
  | .qwen3Coder, call =>
    layout.gap ++ (functionOpen ++ (call.name ++ (['>'] ++
      (renderArguments layout .qwen3Coder call.arguments ++ (functionClose ++ layout.gap)))))

/-- The calls whose names the tags can carry and whose rendered arguments do not contain a closing tag. -/
def Fits : Registered → Call → Prop
  | .poolsideV1, call => isIdentifier call.name = true ∧
      ∀ a ∈ call.arguments, '<' ∉ a.1 ∧ ¬ argValueClose <:+: renderValue a.2
  | .qwen3Coder, call => (call.name ≠ [] ∧ '>' ∉ call.name) ∧
      ¬ functionClose <:+: renderArguments layout .qwen3Coder call.arguments ∧
      ∀ a ∈ call.arguments, (a.1 ≠ [] ∧ '>' ∉ a.1) ∧ ¬ parameterClose <:+: renderValue a.2

end Template

def readBackCall (call : Call) : Call :=
  ⟨pyStrip call.name, setMembers (call.arguments.map fun a => (pyStrip a.1, readBack a.2))⟩

/-- Names without outer white space, and plain strings. -/
structure Intact (call : Call) : Prop where
  name_stripped : pyStrip call.name = call.name
  arguments_intact : ∀ a ∈ call.arguments, pyStrip a.1 = a.1 ∧ ∀ s, a.2 = .str s → Plain s

section Tags

theorem functionOpen_headed : HeadedBy '<' functionOpen := ⟨"function=".toList, by decide, by decide⟩
theorem functionClose_headed : HeadedBy '<' functionClose := ⟨"/function>".toList, by decide, by decide⟩
theorem parameterOpen_headed : HeadedBy '<' parameterOpen := ⟨"parameter=".toList, by decide, by decide⟩
theorem parameterClose_headed : HeadedBy '<' parameterClose := ⟨"/parameter>".toList, by decide, by decide⟩
theorem argKeyOpen_headed : HeadedBy '<' argKeyOpen := ⟨"arg_key>".toList, by decide, by decide⟩
theorem argKeyClose_headed : HeadedBy '<' argKeyClose := ⟨"/arg_key>".toList, by decide, by decide⟩
theorem argValueOpen_headed : HeadedBy '<' argValueOpen := ⟨"arg_value>".toList, by decide, by decide⟩
theorem argValueClose_headed : HeadedBy '<' argValueClose := ⟨"/arg_value>".toList, by decide, by decide⟩
theorem gt_headed : HeadedBy '>' ['>'] := ⟨[], rfl, not_mem_nil⟩

/-- White space is no part of a tag, so padding brings no tag in. -/
theorem not_infix_pad {tag value pad : Text} (hpad : ∀ c ∈ pad, PythonText.isSpace c)
    (hfirst : ∃ c cs, tag = c :: cs ∧ PythonText.isSpace c = false)
    (hlast : ∃ ds d, tag = ds ++ [d] ∧ PythonText.isSpace d = false) (h : ¬ tag <:+: value) :
    ¬ tag <:+: pad ++ value ++ pad := by
  intro hin
  have hstrip := infix_strip PythonText.isSpace hin hfirst hlast
  rw [strip_pad hpad] at hstrip
  obtain ⟨pre, post, hsplit, -, -⟩ := strip_decompose PythonText.isSpace value
  exact h (hstrip.trans ⟨pre, post, hsplit.symm⟩)

theorem ne_lt_of_isSpace {c : Char} (h : PythonText.isSpace c = true) : c ≠ '<' := by
  rintro rfl
  exact absurd h (by decide)

end Tags

section Arguments

variable {layout : Layout}

/-- The values of rendered arguments are read back one by one. -/
theorem parseArguments_padded {arguments : List (Text × Json)} (h : (Json.obj arguments).Distinct) :
    parseArguments (arguments.map fun a => (a.1, layout.pad ++ renderValue a.2 ++ layout.pad)) =
      setMembers (arguments.map fun a => (pyStrip a.1, readBack a.2)) := by
  rw [parseArguments, map_map]
  congr 1
  refine map_congr_left fun a ha => ?_
  simp only [Function.comp_apply]
  rw [parseValue_renderValue (JsonText.Json.DistinctMembers.of_mem h.2 ha) layout.pad_space]

end Arguments

section Qwen3Coder

variable {layout : Layout}

theorem matchTag_append {openTag closeTag name body : Text} (hc : HeadedBy '<' closeTag)
    (hname : name ≠ [] ∧ '>' ∉ name) (hbody : ¬ closeTag <:+: body) (rest : Text) :
    matchTag openTag closeTag (openTag ++ (name ++ (['>'] ++ (body ++ (closeTag ++ rest))))) =
      some ((name, body), rest) := by
  have hgt : ¬ ['>'] <:+: name := fun h => hname.2 (h.subset (mem_singleton_self _))
  simp only [matchTag, strike_append, Option.bind_eq_bind, Option.bind_some, cut_append gt_headed hgt, if_neg hname.1,
    cut_append hc hbody]

theorem matchTag_of_head_ne {openTag closeTag : Text} {d : Char} (ho : HeadedBy '<' openTag) (hd : d ≠ '<')
    (rest : Text) :
    matchTag openTag closeTag (d :: rest) = none := by
  simp only [matchTag, strike_of_head_ne ho hd, Option.bind_eq_bind, Option.bind_none]

theorem matchParameter_render {a : Text × Json} (hkey : a.1 ≠ [] ∧ '>' ∉ a.1)
    (hvalue : ¬ parameterClose <:+: renderValue a.2) (rest : Text) :
    matchParameter (renderParameter layout a ++ rest) =
      some ((a.1, layout.pad ++ renderValue a.2 ++ layout.pad), rest) := by
  have hpadded := not_infix_pad layout.pad_space ⟨_, _, rfl, by decide⟩
    ⟨"</parameter".toList, '>', by decide, by decide⟩ hvalue
  have hmatch := @matchTag_append parameterOpen _ _ _ parameterClose_headed hkey hpadded rest
  simpa only [matchParameter, renderParameter, append_assoc] using hmatch

theorem parseBlock_qwen3Coder {call : Call} (hd : (Json.obj call.arguments).Distinct)
    (hfits : Fits layout .qwen3Coder call) :
    qwen3Coder.parseBlock (renderCall layout .qwen3Coder call) = some (readBackCall call) := by
  obtain ⟨hname, hclose, harguments⟩ := hfits
  have hgap (pattern : Text → Option ((Text × Text) × Text))
      (hpattern : ∀ d, d ≠ '<' → ∀ rest, pattern (d :: rest) = none) :
      ∀ c ∈ layout.gap, ∀ rest, pattern (c :: rest) = none :=
    fun c hc => hpattern c (ne_lt_of_isSpace (layout.gap_space c hc))
  have hfunction : search matchFunction (renderCall layout .qwen3Coder call) =
      some (call.name, renderArguments layout .qwen3Coder call.arguments) := by
    rw [renderCall, search_gap (hgap matchFunction fun d hd => matchTag_of_head_ne functionOpen_headed hd)]
    exact search_match (append_ne_nil_of_left_ne_nil functionOpen_headed.ne_nil _)
      (matchTag_append functionClose_headed hname hclose layout.gap)
  have hparameters : findAll matchParameter (renderArguments layout .qwen3Coder call.arguments) =
      call.arguments.map fun a => (a.1, layout.pad ++ renderValue a.2 ++ layout.pad) := by
    have hspace := hgap matchParameter fun d hd => matchTag_of_head_ne parameterOpen_headed hd
    rw [renderArguments, findAll_gap hspace]
    exact findAll_pieces hspace call.arguments
      (fun a _ => append_ne_nil_of_left_ne_nil parameterOpen_headed.ne_nil _)
      fun a ha => matchParameter_render (harguments a ha).1 (harguments a ha).2
  simp only [qwen3Coder, hfunction, Option.map_some, hparameters, parseArguments_padded hd, readBackCall]

end Qwen3Coder

section PoolsideV1

variable {layout : Layout}

theorem matchArg_of_head_ne {d : Char} (hd : d ≠ '<') (rest : Text) : matchArg (d :: rest) = none := by
  simp only [matchArg, strike_of_head_ne argKeyOpen_headed hd, Option.bind_eq_bind, Option.bind_none]

/-- A group that stops before `c` ends where the next tag starts. -/
theorem span_append {p : Char → Bool} {body : Text} {tag : Text} {c : Char} (ht : HeadedBy c tag)
    (hbody : ∀ d ∈ body, p d = true) (hc : p c = false) (rest : Text) :
    (body ++ (tag ++ rest)).takeWhile p = body ∧ (body ++ (tag ++ rest)).dropWhile p = tag ++ rest := by
  refine JsonText.takeWhile_append_of_all hbody ?_
  obtain ⟨cs, rfl, -⟩ := ht
  rintro d ⟨⟩
  exact hc

theorem matchArg_render {a : Text × Json} (hkey : '<' ∉ a.1) (hvalue : ¬ argValueClose <:+: renderValue a.2)
    (rest : Text) :
    matchArg (renderArg layout a ++ rest) = some ((a.1, layout.pad ++ renderValue a.2 ++ layout.pad), rest) := by
  have hpadded := not_infix_pad layout.pad_space ⟨_, _, rfl, by decide⟩
    ⟨"</arg_value".toList, '>', by decide, by decide⟩ hvalue
  have hkeySpan := @span_append (· != '<') a.1 _ _ argKeyClose_headed
    (fun d hd => by simpa using ne_of_mem_of_not_mem hd hkey) (by decide)
  have hgapSpan := @span_append PythonText.isSpace layout.gap _ _ argValueOpen_headed
    (fun d hd => layout.gap_space d hd) (by decide)
  have htext : renderArg layout a ++ rest =
      argKeyOpen ++ (a.1 ++ (argKeyClose ++ (layout.gap ++ (argValueOpen ++
        ((layout.pad ++ renderValue a.2 ++ layout.pad) ++ (argValueClose ++ rest)))))) := by
    simp only [renderArg, append_assoc]
  simp only [htext, matchArg, strike_append, Option.bind_eq_bind, Option.bind_some, (hkeySpan _).1, (hkeySpan _).2,
    (hgapSpan _).2, cut_append argValueClose_headed hpadded]

theorem identifier_chars {name : Text} (h : isIdentifier name = true) : ∀ c ∈ name, isIdentifierChar c = true := by
  cases name with
  | nil => cases h
  | cons c cs =>
    obtain ⟨hstart, hall⟩ := Bool.and_eq_true_iff.mp h
    intro d hd
    obtain rfl | hd := mem_cons.mp hd
    · simp only [isIdentifierChar, hstart, Bool.true_or]
    · exact all_eq_true.mp hall d hd

theorem isSpace_of_identifierChar {c : Char} (h : isIdentifierChar c = true) : PythonText.isSpace c = false := by
  have hrange : 45 ≤ c.toNat ∧ c.toNat ≤ 122 := by
    simp only [isIdentifierChar, isIdentifierStart, Char.isDigit, Bool.or_eq_true, decide_eq_true_eq, beq_iff_eq,
      Bool.and_eq_true, Char.le_def, UInt32.le_iff_toNat_le, ge_iff_le] at h
    obtain (((⟨h1, h2⟩ | ⟨h1, h2⟩ | rfl) | ⟨h1, h2⟩) | rfl) | rfl := h
    · exact ⟨le_trans (by decide) h1, le_trans h2 (by decide)⟩
    · exact ⟨le_trans (by decide) h1, le_trans h2 (by decide)⟩
    · decide
    · exact ⟨le_trans (by decide) h1, le_trans h2 (by decide)⟩
    · decide
    · decide
  simp only [PythonText.isSpace, Bool.or_eq_false_iff, Bool.and_eq_false_iff, decide_eq_false_iff_not,
    beq_eq_false_iff_ne]
  omega

theorem strip_identifier {name : Text} (h : isIdentifier name = true) : pyStrip name = name :=
  strip_of_ends (fun c hc => isSpace_of_identifierChar (identifier_chars h c (mem_of_mem_head? hc)))
    fun c hc => isSpace_of_identifierChar (identifier_chars h c (mem_of_mem_getLast? hc))

/-- No tag starts before the first argument. -/
theorem not_infix_name {name : Text} (h : isIdentifier name = true) :
    ¬ argKeyOpen <:+: layout.gap ++ name ++ layout.gap := by
  intro hin
  have hlt : '<' ∈ layout.gap ++ name ++ layout.gap := hin.subset (by decide)
  rw [mem_append, mem_append] at hlt
  obtain (hlt | hlt) | hlt := hlt
  · exact ne_lt_of_isSpace (layout.gap_space _ hlt) rfl
  · exact absurd (identifier_chars h _ hlt) (by decide)
  · exact ne_lt_of_isSpace (layout.gap_space _ hlt) rfl

theorem parseBlock_poolsideV1 {call : Call} (hd : (Json.obj call.arguments).Distinct)
    (hfits : Fits layout .poolsideV1 call) :
    poolsideV1.parseBlock (renderCall layout .poolsideV1 call) = some (readBackCall call) := by
  obtain ⟨hname, harguments⟩ := hfits
  have hstrip : pyStrip (layout.gap ++ call.name ++ layout.gap) = call.name := by
    rw [pyStrip, strip_pad layout.gap_space]
    exact strip_identifier hname
  have hargs : findAll matchArg (renderArguments layout .poolsideV1 call.arguments) =
      call.arguments.map fun a => (a.1, layout.pad ++ renderValue a.2 ++ layout.pad) :=
    findAll_pieces (fun c hc => matchArg_of_head_ne (ne_lt_of_isSpace (layout.gap_space c hc))) call.arguments
      (fun a _ => append_ne_nil_of_left_ne_nil argKeyOpen_headed.ne_nil _)
      fun a ha => matchArg_render (harguments a ha).1 (harguments a ha).2
  have hread := @parseArguments_padded layout _ hd
  rw [← hargs] at hread
  cases hcall : call.arguments with
  | nil =>
    have hnone : find argKeyOpen (layout.gap ++ call.name ++ layout.gap) = none :=
      (find_eq_none_iff argKeyOpen_headed.ne_nil).mpr fun i hi =>
        not_infix_name hname (hi.isInfix.trans (drop_suffix i _).isInfix)
    rw [hcall] at hread
    simp only [poolsideV1, renderCall, hcall, renderArguments, flatMap_nil, append_nil, hnone, hstrip, hname,
      if_true, readBackCall, strip_identifier hname]
    exact congrArg (fun arguments => some (Call.mk call.name arguments)) hread
  | cons a arguments =>
    have hfirst : find argKeyOpen (renderCall layout .poolsideV1 call) =
        some (layout.gap ++ call.name ++ layout.gap).length := by
      have htext : renderArguments layout .poolsideV1 call.arguments =
          argKeyOpen ++ (renderArguments layout .poolsideV1 call.arguments).drop argKeyOpen.length := by
        rw [hcall, renderArguments, flatMap_cons, renderArg, append_assoc, append_assoc, drop_left]
      rw [renderCall, htext]
      exact find_append_tag argKeyOpen_headed (not_infix_name hname) _
    simp only [poolsideV1, hfirst]
    rw [renderCall, take_left, drop_left, hstrip, hname, if_pos rfl, hread, readBackCall, strip_identifier hname]

end PoolsideV1

section RoundTrip

variable {layout : Layout}

theorem parseBlock_renderCall (parser : Registered) {call : Call} (hd : (Json.obj call.arguments).Distinct)
    (hfits : Fits layout parser call) :
    parser.parser.parseBlock (renderCall layout parser call) = some (readBackCall call) := by
  cases parser with
  | poolsideV1 => exact parseBlock_poolsideV1 hd hfits
  | qwen3Coder => exact parseBlock_qwen3Coder hd hfits

theorem readBack_eq_iff (v : Json) : readBack v = v ↔ ∀ s, v = .str s → Plain s := by
  cases v with
  | str s =>
    rw [readBack_str_iff]
    exact ⟨fun h t ht => Json.str.inj ht ▸ h, fun h => h s rfl⟩
  | _ => exact ⟨fun _ _ h => (nomatch h), fun _ => rfl⟩

/-- A call comes back as it was exactly when its names have no outer white space and its strings are plain. -/
theorem readBackCall_eq_iff {call : Call} (hd : (call.arguments.map Prod.fst).Nodup) :
    readBackCall call = call ↔ Intact call := by
  constructor
  · intro h
    have hname := congrArg Call.name h
    have harguments := congrArg Call.arguments h
    simp only [readBackCall] at hname harguments
    have hlen := congrArg List.length harguments
    have hmap : (call.arguments.map fun a => (pyStrip a.1, readBack a.2)).length = call.arguments.length := length_map _
    rw [← hmap] at hlen
    rw [JsonText.setMembers_of_nodup (JsonText.nodup_of_length_setMembers hlen)] at harguments
    have hsame := map_inj_left.mp (harguments.trans (map_id _).symm)
    refine ⟨hname, fun a ha => ?_⟩
    have := Prod.ext_iff.mp (hsame a ha)
    exact ⟨this.1, (readBack_eq_iff a.2).mp this.2⟩
  · intro h
    have hsame : (call.arguments.map fun a => (pyStrip a.1, readBack a.2)) = call.arguments := by
      refine (map_inj_left.mpr fun a ha => ?_).trans (map_id _)
      obtain ⟨hkey, hvalue⟩ := h.arguments_intact a ha
      exact Prod.ext hkey ((readBack_eq_iff a.2).mpr hvalue)
    rw [readBackCall, hsame, h.name_stripped, JsonText.setMembers_of_nodup hd]

/-- A call and its arguments as text, to tell two calls apart. -/
def Call.written (call : Call) : Text × Text := (call.name, dumps (.obj call.arguments))

theorem ne_of_written_ne {read : Option Call} {call : Call} (h : read.map Call.written ≠ some call.written) :
    read ≠ some call :=
  fun heq => h (heq ▸ rfl)

/-- The layout of a template that starts a line for every tag and every value. -/
def lines : Layout where
  gap := ['\n']
  pad := ['\n']
  gap_space c hc := by rw [mem_singleton.mp hc]; rfl
  pad_space c hc := by rw [mem_singleton.mp hc]; rfl

def Keeps (parser : Registered) (call : Call) : Prop :=
  parser.parser.parseBlock (renderCall lines parser call) = some call

/-- A string that reads as a number or has outer white space, and names that the tags cannot carry. -/
theorem keeps_fails :
    (∀ parser : Registered, ¬ Keeps parser ⟨"f".toList, [("a".toList, .str "123".toList)]⟩ ∧
      ¬ Keeps parser ⟨"f".toList, [("a".toList, .str " x ".toList)]⟩ ∧
      ¬ Keeps parser ⟨"f".toList, [(" a".toList, .null)]⟩) ∧
    ¬ Keeps .qwen3Coder ⟨"a>b".toList, []⟩ ∧ ¬ Keeps .poolsideV1 ⟨"a b".toList, []⟩ ∧
    ¬ Keeps .qwen3Coder ⟨"f".toList, [("a>b".toList, .null)]⟩ ∧
    ¬ Keeps .qwen3Coder ⟨"f".toList, [([], .null)]⟩ ∧
    ¬ Keeps .poolsideV1 ⟨"f".toList, [("a<b".toList, .null)]⟩ := by
  refine ⟨fun parser => ?_, ?_, ?_, ?_, ?_, ?_⟩
  · cases parser <;> exact ⟨ne_of_written_ne (by decide +kernel), ne_of_written_ne (by decide +kernel),
      ne_of_written_ne (by decide +kernel)⟩
  all_goals exact ne_of_written_ne (by decide +kernel)

/-- The block of a call gives the call back with the names stripped and the values read back, and so the call
itself exactly when it is intact. -/
theorem parseBlock_renderCall_iff (parser : Registered) (layout : Layout) (call : Call)
    (hd : (Json.obj call.arguments).Distinct) (hfits : Fits layout parser call) :
    parser.parser.parseBlock (renderCall layout parser call) = some (readBackCall call) ∧
      (parser.parser.parseBlock (renderCall layout parser call) = some call ↔ Intact call) := by
  have hread := parseBlock_renderCall parser hd hfits
  refine ⟨hread, ?_⟩
  rw [hread, Option.some_inj]
  exact readBackCall_eq_iff hd.1

def weather : Call := ⟨"get_weather".toList, [("city".toList, .str "Paris".toList), ("days".toList, .bool true)]⟩

theorem parseBlock_renderCall_iff_weather :
    Registered.qwen3Coder.parser.parseBlock (renderCall lines .qwen3Coder weather) = some weather :=
  (parseBlock_renderCall_iff .qwen3Coder lines weather ⟨by decide, trivial, trivial, trivial⟩
    ⟨by decide, by decide +kernel, by decide +kernel⟩).2.mpr
    ⟨by decide, by
      intro a ha
      have hplain : Plain "Paris".toList :=
        ⟨by decide, Option.isNone_iff_eq_none.mp (by decide +kernel), Option.isNone_iff_eq_none.mp (by decide +kernel)⟩
      obtain rfl | ha := mem_cons.mp ha
      · refine ⟨by decide, fun s hs => ?_⟩
        rw [← Json.str.inj hs]
        exact hplain
      · obtain rfl := mem_singleton.mp ha
        exact ⟨by decide, nofun⟩⟩

end RoundTrip

end ToolParsers
