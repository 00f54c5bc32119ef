import Mathlib
import Reword.Diagnostic.Basic
/-!
# Filling message templates

Every message template of the table of codes is a text without braces followed by the place
`{0}`; one suggestion template is a text without braces followed by `{1}`, and the others hold no
place, the braces of one of them standing before a letter while a place has a digit there
(`Code.suggestionTemplate_cases`). Filling a template puts each parameter at the first place of its
number still present (`Text.Template.replaceFirst_place`), reading the dollar sequences of the
parameter as it goes, and leaves a text that holds no place as it is
(`Text.Template.fill_of_no_place`).

**The law** (`Diagnostic.message_fills_template`): parameters that hold no `$`, each but the last
holding no `{` either, fill the message and the suggestion templates verbatim, parameter `i`
standing for `{i}`. A single parameter, such as the path of a diagnostic of reading, writing,
listing or of the root, needs only to hold no `$`. Otherwise it is put in with its dollar sequences
read: `$$` is `$`, `$&` is the place `{0}` itself, `` $` `` the text before the place and `$'` the
text after it, here nothing (`Diagnostic.make_single`).

What fails as a promise: that the message always names the parameter as given. A path `a$&b`
gives the message `读取文件失败: a{0}b`, and a first parameter holding `{1}` has that place filled
by the second (`Diagnostic.dollar_path_not_named`).
-/

namespace Reword

namespace Literal

variable {α : Type} [DecidableEq α]

/-- A pattern whose first element the text lacks does not occur in it. -/
theorem firstCut_of_head_not_mem {c : α} {rest text : List α} (h : c ∉ text) :
    firstCut (c :: rest) text = none := by
  induction text with
  | nil => rfl
  | cons d more ih =>
    have hcd : c ≠ d := fun hc => h (hc ▸ List.mem_cons_self)
    have hnot : (c :: rest).isPrefixOf (d :: more) = false := by simp [List.isPrefixOf, hcd]
    rw [firstCut, hnot, if_neg Bool.false_ne_true, ih (fun hm => h (List.mem_cons_of_mem d hm))]
    rfl

/-- After a text that lacks the first element of a pattern, the first occurrence of the pattern is
the first one in what follows. -/
theorem firstCut_append_left {c : α} {rest pre : List α} (h : c ∉ pre) (text : List α) :
    firstCut (c :: rest) (pre ++ text) =
      (firstCut (c :: rest) text).map fun cut => (pre ++ cut.1, cut.2) := by
  induction pre with
  | nil => simp
  | cons d more ih =>
    have hcd : c ≠ d := fun hc => h (hc ▸ List.mem_cons_self)
    have hnot : (c :: rest).isPrefixOf (d :: (more ++ text)) = false := by
      simp [List.isPrefixOf, hcd]
    rw [List.cons_append, firstCut, hnot, if_neg Bool.false_ne_true,
      ih (fun hm => h (List.mem_cons_of_mem d hm)), Option.map_map]
    rfl

/-- The first occurrence of a pattern is found after a text that lacks its first element. -/
theorem firstCut_append {c : α} {rest pre post : List α} (h : c ∉ pre) :
    firstCut (c :: rest) (pre ++ (c :: rest) ++ post) = some (pre, post) := by
  rw [List.append_assoc, firstCut_append_left h]
  simp [firstCut, List.isPrefixOf_iff_prefix]

end Literal

namespace Text.Template

/-- A parameter without `$` is put in as it is. -/
theorem expand_of_dollar_not_mem (matched before after : List Char) {r : List Char}
    (h : '$' ∉ r) : expand matched before after r = r := by
  induction r with
  | nil => rfl
  | cons c rest ih =>
    have hc : c ≠ '$' := fun hc => h (hc ▸ List.mem_cons_self)
    have hrest := ih (fun hm => h (List.mem_cons_of_mem c hm))
    unfold expand
    split <;> simp_all

theorem toList_place (i : Nat) :
    (place i).toList = '\x7b' :: ((toString i).toList ++ ['\x7d']) := by
  simp [place]

/-- A place is a brace followed by a digit. -/
theorem toList_place_digit (i : Nat) :
    ∃ d more, (place i).toList = '\x7b' :: d :: more ∧ d.isDigit = true := by
  obtain ⟨d, ds, hds⟩ := List.exists_cons_of_ne_nil (Nat.toDigits_ne_nil (n := i) (b := 10))
  have hd : d.isDigit = true :=
    Nat.isDigit_of_mem_toDigits (by decide) (by decide) (hds ▸ List.mem_cons_self)
  refine ⟨d, ds ++ ['\x7d'], ?_, hd⟩
  rw [toList_place, Nat.toString_eq_ofList_toDigits, String.toList_ofList, hds, List.cons_append]

/-- A text without braces holds no place. -/
theorem firstCut_place_of_brace_not_mem {text : List Char} (h : '\x7b' ∉ text) (i : Nat) :
    Literal.firstCut (place i).toList text = none := by
  rw [toList_place, Literal.firstCut_of_head_not_mem h]

/-- A text whose one brace stands before something other than a digit holds no place. -/
theorem firstCut_place_of_brace_before {pre post : List Char} {x : Char} (hpre : '\x7b' ∉ pre)
    (hpost : '\x7b' ∉ x :: post) (hx : x.isDigit = false) (i : Nat) :
    Literal.firstCut (place i).toList (pre ++ '\x7b' :: x :: post) = none := by
  obtain ⟨d, more, hplace, hd⟩ := toList_place_digit i
  have hdx : d ≠ x := fun h => by rw [h, hx] at hd; exact Bool.false_ne_true hd
  -- the brace of the text is not followed by the digit of the place, and no brace comes after
  have hnot : ('\x7b' :: d :: more).isPrefixOf ('\x7b' :: x :: post) = false := by
    simp [List.isPrefixOf, hdx]
  rw [hplace, Literal.firstCut_append_left hpre, Literal.firstCut, hnot, if_neg Bool.false_ne_true,
    Literal.firstCut_of_head_not_mem hpost]
  rfl

/-- Replacing a place the text does not hold leaves it as it is. -/
theorem replaceFirst_of_no_place {text : String} {i : Nat}
    (h : Literal.firstCut (place i).toList text.toList = none) (r : String) :
    replaceFirst text (place i) r = text := by
  rw [replaceFirst, h]

/-- A place after a text without braces is the first of its number: the parameter is put there,
its dollar sequences read against the text around the place. -/
theorem replaceFirst_place {pre : String} (h : '\x7b' ∉ pre.toList) (i : Nat) (post r : String) :
    replaceFirst (pre ++ place i ++ post) (place i) r =
      pre ++ String.ofList (expand (place i).toList pre.toList post.toList r.toList) ++ post := by
  have hcut : Literal.firstCut (place i).toList (pre ++ place i ++ post).toList =
      some (pre.toList, post.toList) := by
    rw [String.toList_append, String.toList_append, toList_place]
    exact Literal.firstCut_append h
  rw [replaceFirst, hcut]
  simp [String.append_assoc]

/-- Filling a text that holds no place with parameters numbered from any start leaves it as it is. -/
theorem foldl_replaceFirst_of_no_place {text : String}
    (h : ∀ i, Literal.firstCut (place i).toList text.toList = none) (ps : List String)
    (start : Nat) :
    (ps.zipIdx start).foldl (fun text p => replaceFirst text (place p.2) p.1) text = text := by
  induction ps generalizing start with
  | nil => rfl
  | cons p rest ih =>
    rw [List.zipIdx_cons, List.foldl_cons, replaceFirst_of_no_place (h start), ih (start + 1)]

/-- A text that holds no place is filled as it is. -/
theorem fill_of_no_place {text : String}
    (h : ∀ i, Literal.firstCut (place i).toList text.toList = none) (ps : List String) :
    fill text ps = text :=
  foldl_replaceFirst_of_no_place h ps 0

/-- A place after a text without braces takes a parameter without `$` as it is. -/
theorem replaceFirst_place_verbatim {pre : String} (h : '\x7b' ∉ pre.toList) (i : Nat)
    {r : String} (hr : '$' ∉ r.toList) : replaceFirst (pre ++ place i) (place i) r = pre ++ r := by
  have hplace := replaceFirst_place h i "" r
  rwa [String.append_empty, String.append_empty, expand_of_dollar_not_mem _ _ _ hr,
    String.ofList_toList] at hplace

/-- Parameters without `$`, each but the last without `{`, numbered from `start`, fill a template
that is a text without braces followed by the place `{i}`, with `start ≤ i` and no place before
`i` found in it: parameter `i` stands at the place as it is, and the template stays as it is when
there is no such parameter. -/
theorem foldl_fill_place {pre : String} (h : '\x7b' ∉ pre.toList) {i : Nat}
    (hbefore : ∀ j < i, Literal.firstCut (place j).toList (pre ++ place i).toList = none) :
    ∀ (ps : List String) (start : Nat), start ≤ i → (∀ p ∈ ps, '$' ∉ p.toList) →
      (∀ p ∈ ps.dropLast, '\x7b' ∉ p.toList) →
      (ps.zipIdx start).foldl (fun text p => replaceFirst text (place p.2) p.1) (pre ++ place i) =
        pre ++ ps.getD (i - start) (place i) := by
  intro ps
  induction ps with
  | nil => intro start _ _ _; rfl
  | cons p rest ih =>
    intro start hstart hdollar hbrace
    have hrestDollar : ∀ q ∈ rest, '$' ∉ q.toList := fun q hq => hdollar q (List.mem_cons_of_mem p hq)
    rw [List.zipIdx_cons, List.foldl_cons]
    rcases Nat.lt_or_ge start i with hlt | hge
    · -- a place numbered before `i` is not in the template: the parameter is passed over
      have hrestBrace : ∀ q ∈ rest.dropLast, '\x7b' ∉ q.toList := by
        intro q hq
        have hne : rest ≠ [] := by rintro rfl; simp at hq
        exact hbrace q (by rw [List.dropLast_cons_of_ne_nil hne]; exact List.mem_cons_of_mem p hq)
      obtain ⟨k, hk⟩ : ∃ k, i - start = k + 1 := ⟨i - (start + 1), by omega⟩
      rw [replaceFirst_of_no_place (hbefore start hlt), ih (start + 1) hlt hrestDollar hrestBrace, hk,
        show i - (start + 1) = k by omega]
      rfl
    · -- parameter `i` fills the place; a brace it holds could only be met by a later one
      obtain rfl : i = start := by omega
      rw [replaceFirst_place_verbatim h i (hdollar p List.mem_cons_self), Nat.sub_self]
      cases rest with
      | nil => rfl
      | cons q more =>
        have hclean : '\x7b' ∉ (pre ++ p).toList := by
          simp [h, hbrace p (by simp)]
        rw [foldl_replaceFirst_of_no_place (fun j => firstCut_place_of_brace_not_mem hclean j)]
        rfl

/-- Parameters without `$`, each but the last without `{`, fill a template that is a text without
braces followed by the place `{i}`, no place before `i` found in it, with parameter `i` as it is. -/
theorem fill_place {pre : String} (h : '\x7b' ∉ pre.toList) {i : Nat}
    (hbefore : ∀ j < i, Literal.firstCut (place j).toList (pre ++ place i).toList = none)
    {ps : List String} (hdollar : ∀ p ∈ ps, '$' ∉ p.toList)
    (hbrace : ∀ p ∈ ps.dropLast, '\x7b' ∉ p.toList) :
    fill (pre ++ place i) ps = pre ++ ps.getD i (place i) :=
  foldl_fill_place h hbefore ps 0 (Nat.zero_le i) hdollar hbrace

/-- After a text without braces, the place `{0}` is not found before `{1}`. -/
theorem firstCut_place_before_one {pre : String} (h : '\x7b' ∉ pre.toList) :
    ∀ j < 1, Literal.firstCut (place j).toList (pre ++ place 1).toList = none := by
  intro j hj
  obtain rfl : j = 0 := by omega
  have hzero : Literal.firstCut (place 0).toList (place 1).toList = none := by decide
  rw [String.toList_append, toList_place 0, Literal.firstCut_append_left h, ← toList_place 0,
    hzero]
  rfl

/-- One parameter fills the place `{0}` after a text without braces, its dollar sequences read. -/
theorem fill_single {pre : String} (h : '\x7b' ∉ pre.toList) (param : String) :
    fill (pre ++ place 0) [param] =
      pre ++ String.ofList (expand (place 0).toList pre.toList [] param.toList) := by
  have hplace := replaceFirst_place h 0 "" param
  rw [String.append_empty] at hplace
  simpa [fill, List.zipIdx_cons] using hplace

end Text.Template

namespace Code

open Text.Template

/-- Every message template is a text without braces followed by the place `{0}`. -/
theorem messageTemplate_eq (k : Code) :
    ∃ pre, '\x7b' ∉ pre.toList ∧ k.messageTemplate = pre ++ place 0 := by
  cases k with
  | invalidOption => exact ⟨"配置无效: ", by decide, by decide⟩
  | rulesUnloadable => exact ⟨"无法加载替换规则文件: ", by decide, by decide⟩
  | rootInaccessible => exact ⟨"无法访问根目录: ", by decide, by decide⟩
  | readFailed => exact ⟨"读取文件失败: ", by decide, by decide⟩
  | notUtf8 => exact ⟨"文件不是有效的 UTF-8 文本: ", by decide, by decide⟩
  | writeFailed => exact ⟨"写入文件失败: ", by decide, by decide⟩
  | directorySkipped => exact ⟨"无法读取目录: ", by decide, by decide⟩
  | unknown => exact ⟨"未知错误: ", by decide, by decide⟩

/-- A suggestion template is a text without braces followed by the place `{1}`, or holds no place
at all: the braces of the rules' one stand before a letter. -/
theorem suggestionTemplate_cases (k : Code) :
    (∃ pre, '\x7b' ∉ pre.toList ∧ k.suggestionTemplate = pre ++ place 1) ∨
      ∀ i, Literal.firstCut (place i).toList k.suggestionTemplate.toList = none := by
  cases k with
  | invalidOption => exact Or.inl ⟨"请检查配置项 ", by decide, by decide⟩
  | rulesUnloadable =>
    have hsplit : rulesUnloadable.suggestionTemplate.toList =
        "规则文件必须是 JSON，内容为 ".toList ++
          '\x7b' :: 'p' :: "attern, replacement\x7d 数组或 pattern -> replacement 对象".toList := by
      decide
    refine Or.inr fun i => ?_
    rw [hsplit]
    exact firstCut_place_of_brace_before (by decide) (by decide) (by decide) i
  | rootInaccessible | readFailed | notUtf8 | writeFailed | directorySkipped | unknown =>
    exact Or.inr (firstCut_place_of_brace_not_mem (by decide))

/-- No suggestion template holds the place `{0}`, so one parameter leaves it as it is. -/
theorem fill_suggestionTemplate_single (k : Code) (param : String) :
    fill k.suggestionTemplate [param] = k.suggestionTemplate := by
  rcases k.suggestionTemplate_cases with ⟨pre, hpre, hs⟩ | hnone
  · -- the one place is `{1}`, which a single parameter does not reach
    rw [hs]
    exact replaceFirst_of_no_place (firstCut_place_before_one hpre 0 Nat.zero_lt_one) param
  · exact fill_of_no_place hnone [param]

end Code

namespace Diagnostic

open Text.Template

/-- The diagnostic of a code with one parameter: its message is the template's text before `{0}`
followed by the parameter with its dollar sequences read, which is the parameter itself when it
holds no `$`; its suggestion is the suggestion template, none when that is empty. -/
theorem make_single (k : Code) (param : String) (file : Option String) (cause : Option Cause) :
    ∃ pre, k.messageTemplate = pre ++ place 0 ∧
      (make k [param] file cause).message =
        pre ++ String.ofList (expand (place 0).toList pre.toList [] param.toList) ∧
      ('$' ∉ param.toList → (make k [param] file cause).message = pre ++ param) ∧
      (make k [param] file cause).suggestion = present (some k.suggestionTemplate) := by
  obtain ⟨pre, hpre, htemplate⟩ := k.messageTemplate_eq
  have hmessage : (make k [param] file cause).message =
      pre ++ String.ofList (expand (place 0).toList pre.toList [] param.toList) := by
    simp only [make, htemplate, fill_single hpre]
  refine ⟨pre, htemplate, hmessage, fun hdollar => ?_, ?_⟩
  · rw [hmessage, expand_of_dollar_not_mem _ _ _ hdollar, String.ofList_toList]
  · simp [make, Code.fill_suggestionTemplate_single, present]

/-- The suggestion of a diagnostic is its filled suggestion template, none when that is empty. -/
theorem suggestion_make (k : Code) (ps : List String) (file : Option String)
    (cause : Option Cause) :
    (make k ps file cause).suggestion = present (some (fill k.suggestionTemplate ps)) :=
  rfl

/-- Parameters that hold no `$`, each but the last holding no `{` either, fill the message and the
suggestion templates of every code verbatim: parameter `i` stands for the place `{i}`, which stays
when there is no such parameter. So a diagnostic of a failure at a path holding no `$` names the
path exactly as given. -/
theorem message_fills_template (k : Code) (ps : List String) (file : Option String)
    (cause : Option Cause) (hdollar : ∀ p ∈ ps, '$' ∉ p.toList)
    (hbrace : ∀ p ∈ ps.dropLast, '\x7b' ∉ p.toList) :
    (∃ pre, k.messageTemplate = pre ++ place 0 ∧
      (make k ps file cause).message = pre ++ ps.getD 0 (place 0)) ∧
    ((∃ pre, k.suggestionTemplate = pre ++ place 1 ∧
        (make k ps file cause).suggestion = present (some (pre ++ ps.getD 1 (place 1)))) ∨
      (make k ps file cause).suggestion = present (some k.suggestionTemplate)) ∧
    ∀ (c : Cause) (path : String) (stage : Option Stage), '$' ∉ path.toList →
      (c.diagnose path stage).filePath = some path ∧
      ∃ pre, (c.diagnose path stage).code.messageTemplate = pre ++ place 0 ∧
        (c.diagnose path stage).message = pre ++ path := by
  obtain ⟨pre, hpre, htemplate⟩ := k.messageTemplate_eq
  have hmessage : (make k ps file cause).message = pre ++ ps.getD 0 (place 0) := by
    simp only [make, htemplate, fill_place hpre (fun j hj => absurd hj (Nat.not_lt_zero j))
      hdollar hbrace]
  -- the one suggestion with a place has `{1}`; the others stay as they are
  have hsuggestion : (∃ pre, k.suggestionTemplate = pre ++ place 1 ∧
        (make k ps file cause).suggestion = present (some (pre ++ ps.getD 1 (place 1)))) ∨
      (make k ps file cause).suggestion = present (some k.suggestionTemplate) := by
    rcases k.suggestionTemplate_cases with ⟨spre, hspre, hs⟩ | hnone
    · refine Or.inl ⟨spre, hs, ?_⟩
      rw [suggestion_make, hs, fill_place hspre (firstCut_place_before_one hspre) hdollar hbrace]
    · exact Or.inr (by rw [suggestion_make, fill_of_no_place hnone])
  refine ⟨⟨pre, htemplate, hmessage⟩, hsuggestion, fun c path stage hpath => ⟨rfl, ?_⟩⟩
  -- the diagnostic of a failure at a path is its code's with the path as its one parameter
  obtain ⟨pre, htemplate, -, hverbatim, -⟩ :=
    make_single (c.diagnose path stage).code path (some path) (some c)
  exact ⟨pre, htemplate, hverbatim hpath⟩

/-- The two parameters of an invalid option, its reason and its name, fill its message and its
suggestion as they are. -/
theorem invalid_option_fills_both_templates :
    (∀ p ∈ ["文件后缀不能为空", "extension"], '$' ∉ p.toList) ∧
      (∀ p ∈ ["文件后缀不能为空", "extension"].dropLast, '\x7b' ∉ p.toList) ∧
      (∃ pre, Code.invalidOption.messageTemplate = pre ++ place 0 ∧
        (make .invalidOption ["文件后缀不能为空", "extension"]).message = pre ++ "文件后缀不能为空") := by
  have hdollar : ∀ p ∈ ["文件后缀不能为空", "extension"], '$' ∉ p.toList := by decide
  have hbrace : ∀ p ∈ ["文件后缀不能为空", "extension"].dropLast, '\x7b' ∉ p.toList := by decide
  exact ⟨hdollar, hbrace, (message_fills_template .invalidOption _ none none hdollar hbrace).1⟩

/-- A path holding `$&` is not named by the message of a failure to read it: the sequence stands
for the place `{0}`. And a first parameter holding `{1}` has that place filled by the second. -/
theorem dollar_path_not_named :
    (Cause.diagnose ⟨"boom", none⟩ "a$&b" (some .read)).message = "读取文件失败: a\x7b0\x7db" ∧
      (Cause.diagnose ⟨"boom", none⟩ "a$&b" (some .read)).message ≠ "读取文件失败: " ++ "a$&b" ∧
      (make .invalidOption ["a\x7b1\x7d", "b"]).message = "配置无效: ab" := by
  refine ⟨by decide, by decide, by decide⟩

end Diagnostic

end Reword
