import Reword.Host
import Reword.Volume.Update
import Reword.Text.Utf8
/-!
# Text files

Text is read strictly: the bytes must be well-formed UTF-8, and a byte order mark stays in the
text. Well-formed bytes make a string only up to `Text.maxUnits` of them; more are refused.

Text is written atomically, each lone surrogate as U+FFFD: the bytes go to a temporary file
beside the file the path finally leads to, which takes that file's permission bits and then
replaces it by a rename. Once that file is found, the write takes the next number for its
temporary name. When a step after that fails, the temporary name is removed as a removal that is
not recursive removes it and the fault is returned, so the file that was there is left as it
was; if the temporary name cannot be examined or removed, or holds a directory, that fault is
returned instead.
-/

namespace Reword

namespace TextFile

/-- The text of a file, which must be UTF-8 and short enough for a string. -/
def read (v : Volume) (p : String) : Except Fault String :=
  match v.readFile p with
  | .error f => .error (.system f)
  | .ok bytes =>
    match Text.Utf8.decode? bytes with
    | some s => if bytes.length > Text.maxUnits then .error .stringTooLong else .ok s
    | none => .error .undecodable

/-- Removes a temporary name after a failed step and keeps the fault, unless removing fails: a
name that holds nothing is removed already, a directory is not removed, and anything else is
unlinked. -/
def abandon (v : Volume) (temp : String) (f : SysFault) : Volume × Except SysFault Unit :=
  match v.lstat temp with
  | .error g => (v, .error (if g.errno = .noEntry then f else g))
  | .ok (.dir ..) => (v, .error ⟨.pathIsDirectory, "rm", some temp, none⟩)
  | .ok _ =>
    match v.unlink temp with
    | .ok w => (w, .error f)
    | .error g => (v, .error (if g.errno = .noEntry then f else g))

/-- The temporary path numbered `serial` beside a file's canonical path, in the same directory. -/
def tempPath (host : Host) (serial : Nat) (target : String) : String :=
  Path.child (Path.parent target) (host.tempName (Path.baseName target) serial)

/-- The file a write replaces: the canonical path of the path written, and the node there. -/
def target (v : Volume) (p : String) : Except SysFault (String × Node) :=
  match v.realpath p with
  | .error f => .error f
  | .ok t =>
    match v.stat t with
    | .error f => .error f
    | .ok node => .ok (t, node)

/-- Replaces the content of the file a path leads to, through the temporary file numbered
`serial` beside it. -/
def writeAtomic (host : Host) (v : Volume) (serial : Nat) (p content : String) :
    Volume × Except SysFault Unit :=
  match target v p with
  | .error f => (v, .error f)
  | .ok (t, node) =>
    let mode := node.mode
    let temp := tempPath host serial t
    match v.writeFile host.umask temp (Text.Utf8.encodeText content) mode with
    | .error f => abandon v temp f
    | .ok v1 =>
      match v1.chmod temp mode with
      | .error f => abandon v1 temp f
      | .ok v2 =>
        match v2.rename temp t with
        | .error f => abandon v2 temp f
        | .ok v3 => (v3, .ok ())

end TextFile

end Reword
