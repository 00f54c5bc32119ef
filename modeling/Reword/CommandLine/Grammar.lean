import Reword.Text.Units
import Reword.Json.Basic
/-!
# Command-line grammar

A command takes flags and one optional operand. Every flag has a short name `-x` and a long name
`--name`; the flags a command declares take a value, and two more are built in: the version flag,
which prints the version and stops, and the help flag, which prints the help text and stops.

Reading the arguments from the left:

* `--` ends the flags; everything after it is an operand.
* A flag's name takes the next argument as its value, whatever it looks like; a flag at the end
  with no value stops reading with an error. The version flag stops reading at once.
* `-xVALUE` gives the short flag `-x` the value `VALUE`, and `--name=VALUE` the long flag.
* Any other argument that starts with `-` and is more than `-` is unknown; from the first one on,
  every argument that is not a flag is kept with the unknown ones rather than as an operand.
* A later value of a flag replaces an earlier one; operands beyond the first are ignored.

After reading, a help flag among the unknown arguments prints the help text; otherwise the first
unknown argument is an error, with a suggestion of the long names closest to it when it starts
with `--`. Closeness is the edit distance that counts an exchange of two neighbouring code units
as one edit: names at distance at most three whose share of unchanged units exceeds 0.4, the
nearest only, in alphabetical order.
-/

namespace Reword

namespace CommandLine

/-- A flag: its two names, the name of its value if it takes one, what it does, and the value
it has when not given. -/
structure Flag where
  short : String
  long : String
  valueName : Option String
  description : String
  default : Option String := none
deriving Repr

namespace Flag

/-- The flag as the help text and error messages name it. -/
def term (f : Flag) : String :=
  f.short ++ ", " ++ f.long ++ (f.valueName.map fun v => " <" ++ v ++ ">").getD ""

/-- Whether an argument is one of the flag's names. -/
def names (f : Flag) (arg : String) : Bool :=
  arg = f.short ∨ arg = f.long

end Flag

/-- The operand of a command. -/
structure Operand where
  name : String
  description : String
  default : String
deriving Repr

/-- A command: its name, what it does, its version, its flags and its operand. -/
structure Command where
  name : String
  description : String
  version : String
  flags : List Flag
  operand : Operand
deriving Repr

namespace Command

/-- The built-in flag that prints the version. -/
def versionFlag : Flag :=
  ⟨"-V", "--version", none, "output the version number", none⟩

/-- The built-in flag that prints the help text. -/
def helpFlag : Flag :=
  ⟨"-h", "--help", none, "display help for command", none⟩

/-- The flags that reading recognises by name: the version flag, then the declared ones. -/
def known (c : Command) : List Flag :=
  versionFlag :: c.flags

/-- The recognised flag an argument names. -/
def find? (c : Command) (arg : String) : Option Flag :=
  c.known.find? fun f => f.names arg

/-- Every flag as help lists it. -/
def listed (c : Command) : List Flag :=
  c.known ++ [helpFlag]

/-- The description of a flag with its default, if it has one. -/
def flagDescription (f : Flag) : String :=
  f.description ++ (f.default.map fun d => " (default: " ++ Json.quote d ++ ")").getD ""

/-- One line of a help section: the term padded to `width`, then the description. -/
def helpLine (width : Nat) (term description : String) : String :=
  "  " ++ term ++ String.ofList (List.replicate (width - Text.unitLength term) ' ') ++ "  " ++
    description

/-- The help text. -/
def help (c : Command) : String :=
  let width := ((c.operand.name :: c.listed.map Flag.term).map Text.unitLength).foldl max 0
  "Usage: " ++ c.name ++ " [options] [" ++ c.operand.name ++ "]\n\n" ++
    c.description ++ "\n\n" ++
    "Arguments:\n" ++
    helpLine width c.operand.name
      (c.operand.description ++ " (default: " ++ Json.quote c.operand.default ++ ")") ++ "\n\n" ++
    "Options:\n" ++
    String.join (c.listed.map fun f => helpLine width f.term (flagDescription f) ++ "\n")

end Command

/-- Why reading the arguments stopped before the command could run. -/
inductive Stop where
  /-- The version was asked for. -/
  | version
  /-- The help text was asked for. -/
  | help
  /-- A flag that takes a value came last. -/
  | missingValue (flag : Flag)
  /-- An argument is not a flag the command knows. -/
  | unknownOption (arg : String)
deriving Repr

/-- The arguments of a command that runs: each flag's value, and the operands. -/
structure Invocation where
  values : List (String × String)
  operands : List String
deriving Repr

namespace Invocation

/-- The value given to a flag, named by its long name. -/
def value? (inv : Invocation) (long : String) : Option String :=
  inv.values.lookup long

end Invocation

/-- What has been read so far. -/
structure Reading where
  values : List (String × String) := []
  operands : List String := []
  unknown : List String := []
  inUnknown : Bool := false

namespace Reading

/-- Sets a flag's value; a later value replaces an earlier one. -/
def set (r : Reading) (f : Flag) (value : String) : Reading :=
  { r with values := (f.long, value) :: r.values.filter (·.1 != f.long) }

/-- Keeps arguments as operands, or as unknown ones after the first unknown flag. -/
def keep (r : Reading) (args : List String) : Reading :=
  if r.inUnknown then { r with unknown := r.unknown ++ args }
  else { r with operands := r.operands ++ args }

end Reading

/-- Whether an argument looks like a flag. -/
def looksLikeFlag (arg : String) : Bool :=
  arg.length > 1 ∧ arg.startsWith "-"

/-- Reads arguments from the left. -/
def scan (c : Command) : List String → Reading → Except Stop Reading
  | [], r => .ok r
  | arg :: rest, r =>
    if arg = "--" then .ok (r.keep (if r.inUnknown then arg :: rest else rest))
    else
      let named := if looksLikeFlag arg then c.find? arg else none
      match named with
      | some f =>
        if f.valueName.isNone then .error .version
        else
          match rest with
          | [] => .error (.missingValue f)
          | value :: rest => scan c rest (r.set f value)
      | none =>
        let cs := arg.toList
        let joined :=
          match cs with
          | '-' :: x :: more =>
            if x ≠ '-' ∧ more ≠ [] then
              (c.find? (String.ofList ['-', x])).map fun f => (f, String.ofList more)
            else none
          | _ => none
        match joined with
        | some (f, value) =>
          if f.valueName.isNone then .error .version else scan c rest (r.set f value)
        | none =>
          let assigned :=
            match cs with
            | '-' :: '-' :: more =>
              let name := more.takeWhile (· ≠ '=')
              if name ≠ [] ∧ name.length < more.length then
                match c.find? (String.ofList ('-' :: '-' :: name)) with
                | some f =>
                  if f.valueName.isSome then some (f, String.ofList (more.drop (name.length + 1)))
                  else none
                | none => none
              else none
            | _ => none
          match assigned with
          | some (f, value) => scan c rest (r.set f value)
          | none =>
            let r := if looksLikeFlag arg then { r with inUnknown := true } else r
            scan c rest (r.keep [arg])

/-- The edit distance of two code-unit sequences in which an exchange of two neighbouring units
counts as one edit and no unit is edited twice; sequences whose lengths differ by more than
three count as wholly different. -/
def editDistance (a b : List UInt16) : Nat :=
  if a.length > b.length + 3 ∨ b.length > a.length + 3 then max a.length b.length
  else
    let bs := b.toArray
    let step := fun (rows : Array Nat × Array Nat × Nat × Option UInt16) (x : UInt16) =>
      let (before, prev, i, lastX) := rows
      let row := (List.range bs.size).foldl (fun (cur : Array Nat) j =>
        let y := bs.getD j 0
        let cost := if x = y then 0 else 1
        let best := min (min (prev.getD (j + 1) 0 + 1) (cur.getD j 0 + 1)) (prev.getD j 0 + cost)
        let best :=
          match lastX with
          | some w =>
            if j ≥ 1 ∧ x = bs.getD (j - 1) 0 ∧ w = y then min best (before.getD (j - 1) 0 + 1)
            else best
          | none => best
        cur.push best) #[i + 1]
      (prev, row, i + 1, some x)
    let first := (List.range (bs.size + 1)).toArray
    let (_, last, _, _) := a.foldl step (first, first, 0, none)
    last.getD bs.size 0

/-- The long names closest to an unknown flag, as a suggestion to append to the error. -/
def suggestion (c : Command) (arg : String) : String :=
  if !arg.startsWith "--" then ""
  else
    let word := Text.units (arg.drop 2).toString
    let candidates := (c.listed.map fun f => (f.long.drop 2).toString).eraseDups
    let (_, close) := candidates.foldl (fun (acc : Nat × List String) cand =>
      let (best, close) := acc
      let u := Text.units cand
      if u.length ≤ 1 then acc
      else
        let d := editDistance word u
        let len := max word.length u.length
        -- the share of unchanged units must exceed 0.4
        if 5 * (len - d) > 2 * len then
          if d < best then (d, [cand]) else if d = best then (best, close ++ [cand]) else acc
        else acc) (3, [])
    let sorted := (close.mergeSort fun a b => decide (a ≤ b)).map ("--" ++ ·)
    match sorted with
    | [] => ""
    | [one] => "\n(Did you mean " ++ one ++ "?)"
    | many => "\n(Did you mean one of " ++ ", ".intercalate many ++ "?)"

/-- Reads a command line: the invocation to run, or why it stopped. -/
def parse (c : Command) (args : List String) : Except Stop Invocation :=
  match scan c args {} with
  | .error s => .error s
  | .ok r =>
    if r.unknown.any Command.helpFlag.names then .error .help
    else
      match r.unknown with
      | first :: _ => .error (.unknownOption first)
      | [] => .ok ⟨r.values, r.operands⟩

namespace Stop

/-- What a stop prints on standard output. -/
def out (c : Command) : Stop → String
  | .version => c.version ++ "\n"
  | .help => c.help
  | _ => ""

/-- What a stop prints on standard error. -/
def err (c : Command) : Stop → String
  | .missingValue f => "error: option '" ++ f.term ++ "' argument missing\n"
  | .unknownOption arg => "error: unknown option '" ++ arg ++ "'" ++ suggestion c arg ++ "\n"
  | _ => ""

/-- The exit status of a stop: zero when asked for, one for an error. -/
def exitCode : Stop → Nat
  | .version | .help => 0
  | _ => 1

end Stop

end CommandLine

end Reword
