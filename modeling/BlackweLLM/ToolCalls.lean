import BlackweLLM.PythonText

/-!
# Tool-call blocks

`server/formats/tools.py` over the parser interface of
`server/formats/tool_parsers/base.py`: the scan for closed blocks and the
detection of a block that may just be starting at the end of a stream.
-/

namespace ToolCalls

open TextScan PythonText

def toolCallOpen : Text := "<tool_call>".toList
def toolCallClose : Text := "</tool_call>".toList

theorem toolCallOpen_ne_nil : toolCallOpen ≠ [] := by decide

theorem toolCallOpen_headed : HeadedBy '<' toolCallOpen := ⟨"tool_call>".toList, by decide, by decide⟩

/-- One model family's wire format: the abstract class `ToolCallParser` with its default tags. -/
structure ToolCallParser (Call : Type) where
  openTag : Text := toolCallOpen
  closeTag : Text := toolCallClose
  openTag_ne_nil : openTag ≠ [] := by decide
  parseBlock : Text → Option Call
  findNameBoundary : Text → Bool → Option Text

def ToolCallParser.verbatim : ToolCallParser Text where
  parseBlock := some
  findNameBoundary interior closed := if closed then some interior else none

variable {Call : Type}

/-- The loop of `parse_tool_calls` from `searchStart`: the parsed calls and the spans they fill. -/
def scanBlocks (parser : ToolCallParser Call) (text : Text) : Nat → Nat → List Call × List (Nat × Nat)
  | 0, _ => ([], [])
  | fuel + 1, searchStart =>
    match findFrom parser.openTag text searchStart with
    | none => ([], [])
    | some start =>
      let interiorStart := start + parser.openTag.length
      match findFrom parser.closeTag text interiorStart with
      | none => ([], [])
      | some stop =>
        let blockEnd := stop + parser.closeTag.length
        let rest := scanBlocks parser text fuel blockEnd
        match parser.parseBlock ((text.take stop).drop interiorStart) with
        | some call => (call :: rest.1, (start, blockEnd) :: rest.2)
        | none => rest

/-- `"".join(pieces)`: the text outside the spans, from `last` on. -/
def joinPieces (text : Text) : Nat → List (Nat × Nat) → Text
  | last, [] => text.drop last
  | last, (start, stop) :: spans => (text.take start).drop last ++ joinPieces text stop spans

/-- `(visible_text, tool_calls)`. -/
def parseToolCalls (parser : ToolCallParser Call) (text : Text) : Text × List Call :=
  let found := scanBlocks parser text (text.length + 1) 0
  if found.2 = [] then (pyStrip text, found.1)
  else (pyStrip (joinPieces text 0 found.2), found.1)

/-- Earliest place where a block might start, also when only a beginning of the tag has arrived. -/
def findToolCallStart (text openTag : Text) : Option Nat :=
  match find openTag text with
  | some idx => some idx
  | none =>
    let length := overlapUpTo openTag text (openTag.length - 1)
    if length = 0 then none else some (text.length - length)

theorem overlapUpTo_eq_overlap (marker text : Text) :
    overlapUpTo marker text (marker.length - 1) = overlap marker text := by
  refine le_antisymm ?_ ?_
  · refine le_overlapUpTo (le_min (overlapUpTo_le _ _ _) ?_) (overlapUpTo_suffix _ _ _)
    have hle := (overlapUpTo_suffix marker text (marker.length - 1)).length_le
    have hbound := overlapUpTo_le marker text (marker.length - 1)
    simp only [List.length_take] at hle
    omega
  · exact le_overlapUpTo ((overlapUpTo_le _ _ _).trans (min_le_left _ _)) (overlap_suffix _ _)

theorem findToolCallStart_of_find {text openTag : Text} {i : Nat} (h : find openTag text = some i) :
    findToolCallStart text openTag = some i := by
  simp [findToolCallStart, h]

theorem findToolCallStart_of_not_find {text openTag : Text} (h : find openTag text = none) :
    findToolCallStart text openTag =
      if overlap openTag text = 0 then none else some (text.length - overlap openTag text) := by
  simp [findToolCallStart, h, overlapUpTo_eq_overlap]

end ToolCalls
