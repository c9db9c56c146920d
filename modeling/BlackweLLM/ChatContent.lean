import BlackweLLM.JsonText

/-!
# Chat content

`server/formats/content.py` over the values of a JSON request body, and the
Python operations that the request adapters use on them. An operation that would
raise is `none`. A number prints as the literal it was read from.
-/

namespace ChatContent

open JsonText

/-- A Python dictionary, in insertion order. -/
abbrev Dict := List (Text × Json)

def Dict.get (d : Dict) (name : String) : Option Json := d.lookup name.toList

/-- `name in d`. -/
def Dict.has (d : Dict) (name : String) : Bool := (d.get name).isSome

def text (s : String) : Json := .str s.toList

/-- `v == s` for a string. -/
def isText (v : Json) (s : String) : Bool :=
  match v with
  | .str t => t == s.toList
  | _ => false

section Str

-- `str.isprintable` outside ASCII
variable (isPrintable : Char → Bool)

def hexDigits : Nat → Nat → Text
  | 0, _ => []
  | count + 1, n => hexDigits count (n / 16) ++ [hexDigit (n % 16)]

/-- A character in the `repr` of a string between two of `quote`. -/
def reprChar (quote c : Char) : Text :=
  if c = quote ∨ c = '\\' then ['\\', c]
  else if c = '\t' then ['\\', 't']
  else if c = '\n' then ['\\', 'n']
  else if c = '\r' then ['\\', 'r']
  else if c.toNat < 32 ∨ c.toNat = 127 then '\\' :: 'x' :: hexDigits 2 c.toNat
  else if c.toNat < 127 ∨ isPrintable c then [c]
  else if c.toNat < 0x100 then '\\' :: 'x' :: hexDigits 2 c.toNat
  else if c.toNat < 0x10000 then '\\' :: 'u' :: hexDigits 4 c.toNat
  else '\\' :: 'U' :: hexDigits 8 c.toNat

def reprText (s : Text) : Text :=
  let quote := if '\'' ∈ s ∧ '"' ∉ s then '"' else '\''
  quote :: (s.flatMap (reprChar isPrintable quote) ++ [quote])

mutual

def pyRepr : Json → Text
  | .null => "None".toList
  | .bool true => "True".toList
  | .bool false => "False".toList
  | .num n => n.literal
  | .const .nan => "nan".toList
  | .const .infinity => "inf".toList
  | .const .negInfinity => "-inf".toList
  | .str s => reprText isPrintable s
  | .arr elements => '[' :: (join comma (reprElements elements) ++ [']'])
  | .obj members => '{' :: (join comma (reprMembers members) ++ ['}'])

def reprElements : List Json → List Text
  | [] => []
  | v :: vs => pyRepr v :: reprElements vs

def reprMembers : List (Text × Json) → List Text
  | [] => []
  | (k, v) :: ms => (reprText isPrintable k ++ (':' :: ' ' :: pyRepr v)) :: reprMembers ms

end

def pyStr : Json → Text
  | .str s => s
  | v => pyRepr isPrintable v

end Str

def truthy : Json → Bool
  | .null => false
  | .bool b => b
  | .num n => (n.literal.takeWhile fun c => c != 'e' && c != 'E').any fun c => c.isDigit && c != '0'
  | .const _ => true
  | .str s => !s.isEmpty
  | .arr elements => !elements.isEmpty
  | .obj members => !members.isEmpty

def asText : Json → Option Text
  | .str s => some s
  | _ => none

/-- `"\n".join(parts)`, for parts that are strings. -/
def joinLines (parts : List Json) : Option Text := (parts.mapM asText).map (join ['\n'])

section Content

variable (isPrintable : Char → Bool)

def textParts (blocks : List Json) : List Json :=
  blocks.filterMap fun
    | .obj block =>
      if isText ((Dict.get block "type").getD .null) "text" then some ((Dict.get block "text").getD (text "")) else none
    | .str s => some (Json.str s)
    | _ => none

def extractText : Json → Option Text
  | .null => some []
  | .str s => some s
  | .arr blocks => joinLines (textParts blocks)
  | field => some (pyStr isPrintable field)

def textBlock (s : Text) : Dict := [("type".toList, text "text"), ("text".toList, .str s)]

def extractBlocks : Json → List Dict
  | .null => []
  | .str s => [textBlock s]
  | .arr blocks => blocks.filterMap fun
    | .obj block => some block
    | .str s => some (textBlock s)
    | _ => none
  | field => [textBlock (pyStr isPrintable field)]

/-- `str.lower`, for the comparisons with ASCII names. -/
def lower (s : Text) : Text := s.map Char.toLower

def blockType (block : Dict) : Text := lower (pyStr isPrintable ((block.get "type").getD (text "")))

def imageTypes : List Text := ["image".toList, "image_url".toList, "input_image".toList]

def videoTypes : List Text := ["video".toList, "video_url".toList, "input_video".toList]

local instance : LawfulBEq Text := inferInstance

def contentHasImages (field : Json) : Bool :=
  (extractBlocks isPrintable field).any fun block =>
    decide (blockType isPrintable block ∈ imageTypes) ||
      (blockType isPrintable block != "text".toList && (block.has "image" || block.has "image_url" || block.has "source"))

def contentHasVideos (field : Json) : Bool :=
  (extractBlocks isPrintable field).any fun block =>
    decide (blockType isPrintable block ∈ videoTypes) ||
      (blockType isPrintable block != "text".toList && (block.has "video" || block.has "video_url"))

/-- `block.get(first, block.get(second))`. -/
def Dict.getOr (block : Dict) (first second : String) : Json :=
  (block.get first).getD ((block.get second).getD .null)

/-- A block under its normalised name. -/
def normalizeBlock (block : Dict) : Dict :=
  let kind := blockType isPrintable block
  if kind = "image_url".toList ∨ kind = "input_image".toList then
    [("type".toList, text "image"), ("image_url".toList, block.getOr "image_url" "image")]
  else if kind = "video_url".toList then
    [("type".toList, text "video"), ("video".toList, block.getOr "video_url" "video")]
  else
    match block.get "source" with
    | some source =>
      if kind = "image".toList ∧ block.has "image" = false then [("type".toList, text "image"), ("image".toList, source)]
      else block
    | none => block

def normalizeContentBlocks (field : Json) : List Json :=
  (extractBlocks isPrintable field).map fun block => .obj (normalizeBlock isPrintable block)

end Content

end ChatContent
