import Reword.Substitution.Literal
/-!
# Message templates

A template holds numbered places `{0}`, `{1}`, ... Filling it takes the parameters in order and
puts parameter `i` at the first place `{i}` still present in the text; a later place of the same
number stays, and a parameter may itself bring a place that a later parameter fills.

A parameter is not put in verbatim: in it `$$` stands for `$`, `$&` for the place it fills,
`` $` `` for the text before that place and `$'` for the text after it. Every other `$` is itself.
-/

namespace Reword.Text

namespace Template

/-- The text that stands for a match, with its dollar sequences read: `before` and `after` are the
text around the match. -/
def expand (matched before after : List Char) : List Char → List Char
  | [] => []
  | '$' :: '$' :: rest => '$' :: expand matched before after rest
  | '$' :: '&' :: rest => matched ++ expand matched before after rest
  | '$' :: '\x60' :: rest => before ++ expand matched before after rest
  | '$' :: '\x27' :: rest => after ++ expand matched before after rest
  | c :: rest => c :: expand matched before after rest

/-- Replaces the first occurrence of `needle` by `replacement`, its dollar sequences read. -/
def replaceFirst (text needle replacement : String) : String :=
  match Literal.firstCut needle.toList text.toList with
  | none => text
  | some (before, after) =>
    String.ofList (before ++ expand needle.toList before after replacement.toList ++ after)

/-- The place of parameter `i`. -/
def place (i : Nat) : String :=
  "\x7b" ++ toString i ++ "\x7d"

/-- Fills the places of a template with the parameters, in order. -/
def fill (template : String) (params : List String) : String :=
  (params.zipIdx).foldl (fun text p => replaceFirst text (place p.2) p.1) template

end Template

end Reword.Text
