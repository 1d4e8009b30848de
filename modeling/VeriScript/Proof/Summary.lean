import VeriScript.Proof.Basic
import VeriScript.Session.Options
import VeriScript.Table
import VeriScript.Text.Lines
import VeriScript.Text.Quoted

/-!
# Summaries of proofs

`summaryText` (`format_summary`) lists the theorems and specifications proved so far, for a reader or as a JSON
document.
-/

namespace VeriScript

/-- How often each status occurs, in the order of first occurrence. -/
def statusCounts (records : List ProofRecord) : List (String × Nat) :=
  records.foldl (fun counts r =>
    Table.put counts r.status.name ((Table.get? counts r.status.name).getD 0 + 1)) []

/-- The summary for a reader. -/
def summaryLines (records : List ProofRecord) : List String :=
  let goals := records.filter (·.kind == .goal)
  let specs := records.filter (·.kind == .spec)
  ["Verification summary", "====================",
   Text.decimalNat goals.length ++ " theorem(s), " ++ Text.decimalNat specs.length ++ " specification(s)"] ++
  goals.map (fun r => "  theorem " ++ r.name ++ ": " ++ r.status.name ++ "  " ++ r.goal) ++
  specs.map fun r => "  spec " ++ r.name ++ ": " ++ r.status.name

/-! ## JSON -/

/-- Lines indented by `n` spaces. -/
def indent (n : Nat) (text : String) : String :=
  String.ofList (List.replicate n ' ') ++ text

/-- Items one to a line between brackets at the given depth; no items leave the brackets empty. -/
def jsonItems (opening closing : String) (depth : Nat) (items : List String) : String :=
  if items.isEmpty then opening ++ closing
  else opening ++ "\n" ++ String.intercalate ",\n" (items.map (indent (2 * depth + 2))) ++ "\n" ++
    indent (2 * depth) closing

/-- A keyed entry of a JSON object. -/
def jsonEntry (key value : String) : String :=
  Text.jsonText key ++ ": " ++ value

def ProofRecord.json (r : ProofRecord) : String :=
  jsonItems "\x7b" "\x7d" 2
    [jsonEntry "kind" (Text.jsonText r.kind.name), jsonEntry "name" (Text.jsonText r.name),
     jsonEntry "goal" (Text.jsonText r.goal), jsonEntry "status" (Text.jsonText r.status.name),
     jsonEntry "tactic" (match r.tactic with | some t => Text.jsonText t.name | none => "null")]

/-- The summary as a JSON document. -/
def summaryJson (records : List ProofRecord) : String :=
  let list (kind : RecordKind) : String :=
    jsonItems "[" "]" 1 ((records.filter (·.kind == kind)).map ProofRecord.json)
  jsonItems "\x7b" "\x7d" 0
    [jsonEntry "theorems" (list .goal), jsonEntry "specs" (list .spec),
     jsonEntry "totals" (jsonItems "\x7b" "\x7d" 1
       ((statusCounts records).map fun c => jsonEntry c.1 (Text.decimalNat c.2)))]

/-- The summary in a format. -/
def summaryText (format : SummaryFormat) (records : List ProofRecord) : String :=
  match format with
  | .pretty => Text.joinLines (summaryLines records)
  | .json => summaryJson records

end VeriScript
