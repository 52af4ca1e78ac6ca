import Moagan.Json.Extractor
import Moagan.Json.Slips

/-!
# Parsing a model answer (`src/phases/util.rs`, `src/llm/control_tokens.rs`)

* `stripCodeFence`          the text between the fences of a code block
* `stripResponseText`       chat-template markers and control characters go
* `parseTolerantCandidate`  parse a part of the answer, repaired if need be
* `parseModelJsonTraced`    the chain of attempts; the result carries the events given to the sink

`serde_json::from_str::<T>` is the parameter `fromStr`.  The texts of the errors are left out: an
error names its kind and the text it shows.
-/

namespace Moagan
open Scanning

/-! ## the code fence -/

/-- `str::trim_end` -/
def trimEnd (t : Text) : Text := (t.reverse.dropWhile isWhitespace).reverse

/-- `str::trim` -/
def trim (t : Text) : Text := trimEnd (t.dropWhile isWhitespace)

/-- `rfind`: the text before the last occurrence -/
def beforeLast (pat : Text) : Text → Option Text
  | [] => none
  | c :: t =>
    match beforeLast pat t with
    | some before => some (c :: before)
    | none => if pat.isPrefixOf (c :: t) then some [] else none

/-- the text between an opening fence at the front and the last closing one -/
def insideFence (opening t : Text) : Option Text :=
  if opening.isPrefixOf t then (beforeLast "```".toList (t.drop opening.length)).map trim else none

def stripCodeFence (raw : Text) : Text :=
  let s := trim raw
  ((insideFence "```json".toList s).or (insideFence "```".toList s)).getD s

/-! ## control tokens -/

/-- an alternative of `CHAT_TEMPLATE_MARKERS`: the characters allowed at each place -/
abbrev Marker := List (List Char)

def verbatim (s : String) : Marker := s.toList.map fun c => [c]

/-- `CHAT_TEMPLATE_MARKERS`; a letter without regard to case has the long s among its forms, and
an optional blank makes two alternatives -/
def chatTemplateMarkers : List Marker :=
  [[['['], ['B', 'b'], ['O', 'o'], [' '], ['S', 's', 'ſ'], [']']],
   [['['], ['B', 'b'], ['O', 'o'], ['S', 's', 'ſ'], [']']],
   [['['], ['E', 'e'], ['O', 'o'], ['S', 's', 'ſ'], [' '], [']']],
   [['['], ['E', 'e'], ['O', 'o'], ['S', 's', 'ſ'], [']']]] ++
  ["<|im_start|>", "<|im_end|>", "<|eot_id|>", "<|end_of_turn|>", "<|endoftext|>",
   "</system>", "<system>", "</assistant>", "<assistant>", "</user>", "<user>"].map verbatim

/-- the alternative matches at the front -/
def Marker.matchesAt : Marker → Text → Bool
  | [], _ => true
  | _ :: _, [] => false
  | cs :: m, c :: t => decide (c ∈ cs) && Marker.matchesAt m t

/-- length of the marker at the front -/
def markerLength (t : Text) : Option Nat :=
  (chatTemplateMarkers.find? fun m => m.matchesAt t).map List.length

/-- `replace_all` with a blank; `skip` characters of a marker are still to be passed over -/
def replaceMarkers : Nat → Text → Text
  | _, [] => []
  | skip + 1, _ :: t => replaceMarkers skip t
  | 0, c :: t =>
    match markerLength (c :: t) with
    | some n => ' ' :: replaceMarkers (n - 1) t
    | none => c :: replaceMarkers 0 t

/-- `strip_chat_template_tokens`; `none` where the source borrows its input -/
def stripChatTemplateTokens (t : Text) : Option Text :=
  if t.tails.any fun u => (markerLength u).isSome then some (replaceMarkers 0 t) else none

def shouldKeep (c : Char) : Bool :=
  c = '\n' || c = '\r' || c = '\t' || (0x20 ≤ c.toNat && c.toNat ≠ 0x7F)

/-- `strip` -/
def stripControl (t : Text) : Option Text :=
  if t.any fun c => !shouldKeep c then some (t.filter shouldKeep) else none

def stripResponseText (t : Text) : Option Text :=
  match stripChatTemplateTokens t with
  | none => stripControl t
  | some owned => some ((stripControl owned).getD owned)

/-! ## the chain of attempts -/

/-- the text from one byte position on -/
def dropBytes : Nat → Text → Text
  | 0, t => t
  | _ + 1, [] => []
  | n + 1, c :: t => dropBytes (n + 1 - c.utf8Size) t

/-- the text up to a byte position -/
def takeBytes : Nat → Text → Text
  | 0, _ => []
  | _ + 1, [] => []
  | n + 1, c :: t => c :: takeBytes (n + 1 - c.utf8Size) t

/-- `Error::SchemaViolation`: a fragment; no repair; a repair that does not parse -/
inductive SchemaViolation where
  | fragment (cleaned : Text)
  | notJson (braced : Text)
  | notJsonAfterRepair (repaired : Text)
deriving DecidableEq, Repr

section
variable {T : Type} (parses : Text → Bool) (fromStr : Text → Option T)

/-- the value, and the events given to the sink on the way -/
def parseTolerantCandidate (candidate : Text) : Option T × List RepairTrace :=
  match fromStr candidate with
  | some v => (some v, [])
  | none =>
    match repairM3BracketsWithTrace parses candidate with
    | (none, _) => (none, [])
    | (some repaired, repairs) => (fromStr repaired, repairs)

/-- the next attempt, when the ones before did not give a value -/
def orTry (before : Option T × List RepairTrace) (next : Option T × List RepairTrace) :
    Option T × List RepairTrace :=
  match before.1 with
  | some _ => before
  | none => (next.1, before.2 ++ next.2)

/-- the candidate that the extractor selects, and whether the text goes on behind it -/
def tolerantCandidate (braced : Text) : Option (Text × Bool) :=
  match extractTolerantJson braced with
  | .ok (start, stop) =>
    some (takeBytes (stop - start) (dropBytes start braced), continuesAfter (dropBytes stop braced))
  | .error _ => none

/-- the candidate is tried where it is complete (`cutShort = false`) or cut short -/
def tryCandidate (braced : Text) (cutShort : Bool) : Option T × List RepairTrace :=
  match tolerantCandidate braced with
  | some (candidate, continues) =>
    if continues = cutShort then parseTolerantCandidate parses fromStr candidate else (none, [])
  | none => (none, [])

/-- the m3 chain on the whole text: the value and the events, and the error it leaves -/
def tryRepair (braced : Text) : (Option T × List RepairTrace) × SchemaViolation :=
  match repairM3BracketsWithTrace parses braced with
  | (none, _) => ((none, []), .notJson braced)
  | (some repaired, repairs) => ((fromStr repaired, repairs), .notJsonAfterRepair repaired)

/-- the slip repairs are reported when their text parses -/
def trySlips (braced : Text) : Option T × List RepairTrace :=
  match repairSlips braced with
  | (none, _) => (none, [])
  | (some slipped, slips) =>
    match fromStr slipped with
    | some v => (some v, slips)
    | none => (none, [])

/-- what follows the opening brace: `events` were given to the sink before -/
def parseBraced (braced : Text) (events : List RepairTrace) :
    Except SchemaViolation T × List RepairTrace :=
  let repair := tryRepair parses fromStr braced
  let found := orTry (orTry (orTry (orTry (fromStr braced, []) (tryCandidate parses fromStr braced false))
    repair.1) (trySlips fromStr braced)) (tryCandidate parses fromStr braced true)
  (match found.1 with
    | some v => .ok v
    | none => .error repair.2, events ++ found.2)

def parseModelJsonTraced (raw : Text) : Except SchemaViolation T × List RepairTrace :=
  let trimmed := stripCodeFence raw
  let stripped := stripResponseText trimmed
  match (fromStr trimmed).or (stripped.bind fromStr) with
  | some v => (.ok v, [])
  | none =>
    let cleaned := stripped.getD trimmed
    match repairMissingOpenBrace cleaned with
    | some patched =>
      if closesObject patched (insertedAt cleaned patched) then
        parseBraced parses fromStr patched [⟨.openBrace, utf8Len cleaned, utf8Len patched⟩]
      else (.error (.fragment cleaned), [])
    | none => parseBraced parses fromStr cleaned []

end

end Moagan
