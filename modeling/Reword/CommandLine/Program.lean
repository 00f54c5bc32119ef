import Reword.CommandLine.Grammar
import Reword.Run
/-!
# The command line

The program's command takes the root to walk as its operand, the extension with `-e`, and a
rules file with `-r`. A run prints the report of the run as a log line; a run that stops before
it can report prints the text meant for a person as an error line and ends with status one; a
run that never returns prints nothing more.
-/

namespace Reword

namespace CommandLine

/-- The program's command. -/
def program : Command where
  name := "literal-localize"
  description := "按有序的字面量替换表批量改写源码中的字符串"
  version := "1.0.0"
  flags := [
    ⟨"-e", "--ext", some "ext", "要处理的文件后缀", some Options.defaultExtension⟩,
    ⟨"-r", "--rules", some "rules", "替换规则 JSON 文件 (默认使用内置的日文 -> 英文表)", none⟩]
  operand := ⟨"root", "要遍历的根目录", Options.defaultRoot⟩

/-- What a command line leaves besides the volume and the log: why reading stopped, if it did,
the exit status of the run, and what reading printed on standard output and standard error. -/
structure Answer where
  stop : Option Stop
  status : Nat
  out : String
  err : String

/-- The options a command line asks for. -/
def optionsOf (inv : Invocation) : Options :=
  { root := some (inv.operands.head?.getD program.operand.default)
    extension := some ((inv.value? "--ext").getD Options.defaultExtension)
    rulesFile := inv.value? "--rules" }

/-- Reads a command line and runs it; none when the run never returns. -/
def run (host : Host) (v : Volume) (args : List String) : Ran (Option Answer) :=
  match parse program args with
  | .error stop => ⟨v, [], some ⟨some stop, 0, stop.out program, stop.err program⟩, host.tempsNamed⟩
  | .ok inv =>
    let ran := Run.execute host v (optionsOf inv)
    match ran.result with
    | none => { ran with result := none }
    | some x =>
      match x.report with
      | none => ⟨ran.volume, ran.logs ++ [⟨.error, x.message.getD ""⟩], some ⟨none, 1, "", ""⟩,
          ran.named⟩
      | some r => ⟨ran.volume, ran.logs ++ [⟨.log, r.text⟩], some ⟨none, 0, "", ""⟩, ran.named⟩

end CommandLine

end Reword
