import Reword.Text.Template
/-!
# Diagnostics

Every failure the program reports is a diagnostic: a code, a message filled in from the code's
template, the file it concerns, a suggestion, and the failure underneath it. The code fixes the
category, the severity and both templates; a code name that is not known reads as the unknown
code.

A failure met while reading, writing or listing becomes a diagnostic of that stage, with the
path as its one parameter. Reading text that is not UTF-8 has a code of its own, told apart by
the error code of the failure underneath.
-/

namespace Reword

/-- What part of a run a diagnostic concerns. -/
inductive Category where
  | config
  | root
  | read
  | write
  | traversal
  | unknown
deriving DecidableEq, Repr

/-- The name of a category. -/
def Category.name : Category → String
  | .config => "ConfigError"
  | .root => "RootError"
  | .read => "ReadError"
  | .write => "WriteError"
  | .traversal => "TraversalError"
  | .unknown => "UnknownError"

/-- How much of a run a diagnostic stops: nothing, one file, or all of it. -/
inductive Severity where
  | warning
  | error
  | fatal
deriving DecidableEq, Repr

/-- The name of a severity. -/
def Severity.name : Severity → String
  | .warning => "WARNING"
  | .error => "ERROR"
  | .fatal => "FATAL"

/-- The kinds of diagnostic. -/
inductive Code where
  /-- An option has a value that cannot be used. -/
  | invalidOption
  /-- The rules file cannot be read or is not a rule document. -/
  | rulesUnloadable
  /-- The root cannot be listed. -/
  | rootInaccessible
  /-- A file cannot be read. -/
  | readFailed
  /-- A file is not UTF-8 text. -/
  | notUtf8
  /-- A file cannot be written. -/
  | writeFailed
  /-- A directory cannot be listed and is skipped. -/
  | directorySkipped
  /-- Anything else. -/
  | unknown
deriving DecidableEq, Repr

namespace Code

/-- All codes. -/
def all : List Code :=
  [.invalidOption, .rulesUnloadable, .rootInaccessible, .readFailed, .notUtf8, .writeFailed,
    .directorySkipped, .unknown]

/-- The code's name as written in diagnostics. -/
def ident : Code → String
  | .invalidOption => "CONFIG001"
  | .rulesUnloadable => "CONFIG002"
  | .rootInaccessible => "ROOT001"
  | .readFailed => "READ001"
  | .notUtf8 => "READ002"
  | .writeFailed => "WRITE001"
  | .directorySkipped => "TRAVERSE001"
  | .unknown => "GENERAL001"

/-- The code of a name; a name that is not known gives the unknown code. -/
def ofIdent (name : String) : Code :=
  (all.find? fun c => c.ident = name).getD .unknown

/-- The category of a code. -/
def category : Code → Category
  | .invalidOption | .rulesUnloadable => .config
  | .rootInaccessible => .root
  | .readFailed | .notUtf8 => .read
  | .writeFailed => .write
  | .directorySkipped => .traversal
  | .unknown => .unknown

/-- The severity of a code. -/
def severity : Code → Severity
  | .invalidOption | .rulesUnloadable | .rootInaccessible => .fatal
  | .readFailed | .notUtf8 | .writeFailed | .unknown => .error
  | .directorySkipped => .warning

/-- The message template of a code. -/
def messageTemplate : Code → String
  | .invalidOption => "配置无效: \x7b0\x7d"
  | .rulesUnloadable => "无法加载替换规则文件: \x7b0\x7d"
  | .rootInaccessible => "无法访问根目录: \x7b0\x7d"
  | .readFailed => "读取文件失败: \x7b0\x7d"
  | .notUtf8 => "文件不是有效的 UTF-8 文本: \x7b0\x7d"
  | .writeFailed => "写入文件失败: \x7b0\x7d"
  | .directorySkipped => "无法读取目录: \x7b0\x7d"
  | .unknown => "未知错误: \x7b0\x7d"

/-- The suggestion template of a code; the unknown code has none. -/
def suggestionTemplate : Code → String
  | .invalidOption => "请检查配置项 \x7b1\x7d"
  | .rulesUnloadable =>
    "规则文件必须是 JSON，内容为 \x7bpattern, replacement\x7d 数组或 pattern -> replacement 对象"
  | .rootInaccessible => "请确认根目录存在、是一个目录并且有读取权限"
  | .readFailed => "请确认文件存在且有读取权限"
  | .notUtf8 => "请将文件转换为 UTF-8 编码，或从处理范围中排除该文件"
  | .writeFailed => "请确认文件所在目录有写入权限，检查磁盘空间是否足够"
  | .directorySkipped => "该目录已被跳过，请检查目录权限"
  | .unknown => ""

end Code

/-- The failure underneath a diagnostic: its message and, if it has one, its error code. -/
structure Cause where
  message : String
  errno : Option String := none
deriving DecidableEq, Repr

/-- A coded report of a failure. -/
structure Diagnostic where
  code : Code
  message : String
  filePath : Option String := none
  suggestion : Option String := none
  cause : Option Cause := none
deriving DecidableEq, Repr

namespace Diagnostic

/-- The diagnostic of a code: both templates filled with the parameters; an empty suggestion is
none. -/
def make (code : Code) (params : List String) (filePath : Option String := none)
    (cause : Option Cause := none) : Diagnostic :=
  let suggestion := Text.Template.fill code.suggestionTemplate params
  { code, filePath, cause
    message := Text.Template.fill code.messageTemplate params
    suggestion := if suggestion.isEmpty then none else some suggestion }

/-- The category of the diagnostic. -/
def category (d : Diagnostic) : Category := d.code.category

/-- The severity of the diagnostic. -/
def severity (d : Diagnostic) : Severity := d.code.severity

/-- The message of the failure underneath. -/
def details (d : Diagnostic) : Option String := d.cause.map Cause.message

/-- The error code of the failure underneath. -/
def errno (d : Diagnostic) : Option String := d.cause.bind Cause.errno

/-- A text that is present and not empty. -/
def present : Option String → Option String
  | some s => if s.isEmpty then none else some s
  | none => none

/-- The details when they are present and differ from the message. -/
def extraDetails (d : Diagnostic) : Option String :=
  match present d.details with
  | some s => if s = d.message then none else some s
  | none => none

/-- The diagnostic as a log entry: code and message, then file, details and suggestion lines
where present. -/
def logText (d : Diagnostic) : String :=
  "[" ++ d.code.ident ++ "] " ++ d.message ++
    ((present d.filePath).map ("\n文件: " ++ ·)).getD "" ++
    (d.extraDetails.map ("\n详情: " ++ ·)).getD "" ++
    ((present d.suggestion).map ("\n建议: " ++ ·)).getD ""

/-- The diagnostic as told to a person: code and message, the file unless the message names it,
the details, and the suggestion as a paragraph of its own. -/
def userText (d : Diagnostic) : String :=
  let file :=
    match present d.filePath with
    | some p => if (Literal.firstCut p.toList d.message.toList).isSome then "" else "\n文件位置: " ++ p
    | none => ""
  "错误(" ++ d.code.ident ++ "): " ++ d.message ++ file ++
    (d.extraDetails.map ("\n原因: " ++ ·)).getD "" ++
    ((present d.suggestion).map ("\n\n修复建议:\n" ++ ·)).getD ""

end Diagnostic

/-- A step of work on one path. -/
inductive Stage where
  | read
  | write
  | traverse
deriving DecidableEq, Repr

namespace Stage

/-- The stage of a name. -/
def ofName? : String → Option Stage
  | "read" => some .read
  | "write" => some .write
  | "traverse" => some .traverse
  | _ => none

/-- The code of a failure at a stage; an unknown stage has the unknown code. -/
def code : Option Stage → Code
  | some .read => .readFailed
  | some .write => .writeFailed
  | some .traverse => .directorySkipped
  | none => .unknown

end Stage

/-- The error code of a failure to decode text as UTF-8. -/
def Cause.invalidEncodingErrno : String := "ERR_ENCODING_INVALID_ENCODED_DATA"

/-- The diagnostic of a plain failure at a stage on a path: the stage's code, except that text
that is not UTF-8 takes its own code when read. -/
def Cause.diagnose (c : Cause) (path : String) (stage : Option Stage) : Diagnostic :=
  let code :=
    if stage = some .read ∧ c.errno = some Cause.invalidEncodingErrno then Code.notUtf8
    else Stage.code stage
  Diagnostic.make code [path] (some path) (some c)

end Reword
