import Reword.Json.Basic
import Reword.Substitution.Table
import Reword.Diagnostic.Basic
/-!
# Rule documents

A rule document is JSON in one of two forms: an array of objects, each with a string `pattern`
and a string `replacement` (other members are ignored), or an object whose members map a pattern
to its replacement, read in property order. The first item or member that does not fit stops the
reading with a diagnostic that names the document's source and the item; a document of any
other kind is refused as a whole.
-/

namespace Reword

namespace Rule

/-- The rule an array item describes, if it is an object with string `pattern` and
`replacement`. -/
def ofItem? (item : Json) : Option Rule :=
  match item.field? "pattern", item.field? "replacement" with
  | some (.string p), some (.string r) => some ⟨p, r⟩
  | _, _ => none

/-- The diagnostic for a document from `source` that is not a rule document, with `why` naming
the part that does not fit. -/
def documentError (source : String) (why : Option String := none) : Diagnostic :=
  Diagnostic.make .rulesUnloadable [source ++ (why.map (" " ++ ·)).getD ""]

/-- Reads the items of an array document, counting from `index`. -/
def ofItems (source : String) (index : Nat) : List Json → Except Diagnostic (List Rule)
  | [] => .ok []
  | item :: rest =>
    match ofItem? item with
    | none => .error (documentError source (some ("(第 " ++ toString index ++ " 项格式无效)")))
    | some r => (ofItems source (index + 1) rest).map (r :: ·)

/-- Reads the members of an object document. -/
def ofMembers (source : String) : List (String × Json) → Except Diagnostic (List Rule)
  | [] => .ok []
  | (pattern, .string replacement) :: rest =>
    (ofMembers source rest).map (⟨pattern, replacement⟩ :: ·)
  | (pattern, _) :: _ =>
    .error (documentError source (some ("(\"" ++ pattern ++ "\" 的值不是字符串)")))

/-- The rules of a document read from `source`, in order. -/
def ofDocument (doc : Json) (source : String) : Except Diagnostic (List Rule) :=
  match doc with
  | .array items => ofItems source 0 items
  | .object members => ofMembers source members
  | _ => .error (documentError source)

end Rule

end Reword
