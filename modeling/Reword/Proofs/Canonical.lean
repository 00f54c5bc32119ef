import Reword.Proofs.Shape
/-!
# Canonical paths

`realpath` reads a path as text: it normalises the names, and it reads each link's target
against the names before the link, undoing `..` on the text. Every later call reads the path it
gives from the top, through the volume. Both readings meet on what `realpath` returns: `/`
followed by plain names (`Path.Plain`: not empty, `.` or `..`, and without `/`), each directory
on the way one that may be searched, and at the end a node that is not a link
(`Volume.Resolved`).

**The law** (`realpath_resolved`): the canonical path of a path is `/` or the path of a
resolved location; a lookup of that path, its last link followed or not, ends at the location
(`Resolved.find`) and finds the node that stands there (`Resolved.stat`).

The text of a path of plain names reads back as the names (`Path.names_ofNames`), its directory
and last name are the names' (`parent_ofNames`, `baseName_ofNames`), and a name put after it is
one name more (`child_ofNames`): so a file beside a canonical path is an entry of the same
directory.

Lookups read only routes: whether a node is a directory, with its permission bits, a link, with
its target, or neither (`Node.route`). Replacing a file or a special file by a file changes no
route, so no lookup and no canonical path (`realpath_congr`).

What does not follow: that the location a lookup of the original path ends at is this one. A
link's target read as text and the same target read through the volume part ways at a `..`
after a link, and nothing here relates the two.
-/

namespace Reword

namespace Path

/-- A name that a lookup takes as the name of an entry: not empty, not `.` or `..`, and without
a slash. -/
def Plain (name : String) : Prop :=
  name ≠ "" ∧ name ≠ "." ∧ name ≠ ".." ∧ '/' ∉ name.toList

instance : DecidablePred Plain := fun _ => inferInstanceAs (Decidable (_ ∧ _ ∧ _ ∧ _))

/-- No piece of a text split at `/` holds a `/`. -/
theorem slash_not_mem_of_mem_splitOn :
    ∀ {l s : List Char}, s ∈ l.splitOn '/' → '/' ∉ s
  | [], s, hs => by simp [List.splitOn_nil] at hs; simp [hs]
  | c :: l, s, hs => by
    rw [List.splitOn_cons_eq_if_modifyHead] at hs
    by_cases hsep : c = '/'
    · simp only [hsep, beq_self_eq_true, if_true] at hs
      rcases List.mem_cons.mp hs with rfl | hs
      · simp
      · exact slash_not_mem_of_mem_splitOn hs
    · simp only [beq_false_of_ne hsep, Bool.false_eq_true, if_false] at hs
      obtain ⟨first, more, hsplit⟩ := List.exists_cons_of_ne_nil (List.splitOn_ne_nil '/' l)
      rw [hsplit, List.modifyHead_cons] at hs
      rcases List.mem_cons.mp hs with rfl | hs
      · intro hmem
        rcases List.mem_cons.mp hmem with hc | hmem
        · exact hsep hc.symm
        · exact slash_not_mem_of_mem_splitOn (hsplit ▸ List.mem_cons_self) hmem
      · exact slash_not_mem_of_mem_splitOn (hsplit ▸ List.mem_cons_of_mem _ hs)

theorem slash_not_mem_of_mem_parts {p s : String} (h : s ∈ parts p) : '/' ∉ s.toList := by
  simp only [parts, List.mem_map] at h
  obtain ⟨l, hl, rfl⟩ := h
  simpa using slash_not_mem_of_mem_splitOn hl

/-- Normalising keeps only plain names. -/
theorem plain_of_mem_normalize {names : List String} {ps : List String}
    (hnames : ∀ n ∈ names, Plain n) (hps : ∀ s ∈ ps, '/' ∉ s.toList) :
    ∀ n ∈ normalize names ps, Plain n := by
  induction ps generalizing names with
  | nil => simpa [normalize] using hnames
  | cons part rest ih =>
    have hrest : ∀ s ∈ rest, '/' ∉ s.toList := fun s hs => hps s (List.mem_cons_of_mem _ hs)
    rw [normalize]
    split
    · exact ih hnames hrest
    · split
      · exact ih (fun n hn => hnames n (List.dropLast_subset _ hn)) hrest
      · rename_i hempty hdots
        apply ih _ hrest
        intro n hn
        rcases List.mem_append.mp hn with hn | hn
        · exact hnames n hn
        · rw [List.mem_singleton] at hn
          subst hn
          simp only [not_or] at hempty
          exact ⟨hempty.1, hempty.2, hdots, hps _ List.mem_cons_self⟩

theorem plain_of_mem_names (p : String) : ∀ n ∈ names p, Plain n :=
  plain_of_mem_normalize (fun _ h => absurd h List.not_mem_nil)
    (fun _ h => slash_not_mem_of_mem_parts h)

theorem normalize_of_plain {names ps : List String} (h : ∀ n ∈ ps, Plain n) :
    normalize names ps = names ++ ps := by
  induction ps generalizing names with
  | nil => simp [normalize]
  | cons part rest ih =>
    obtain ⟨hempty, hdot, hdots, _⟩ := h part List.mem_cons_self
    rw [normalize, if_neg (by simp [hempty, hdot]), if_neg hdots,
      ih (fun n hn => h n (List.mem_cons_of_mem _ hn))]
    simp

theorem toList_ofNames (ns : List String) :
    (ofNames ns).toList = '/' :: ['/'].intercalate (ns.map String.toList) := by
  simp [ofNames, String.toList_intercalate]

theorem parts_ofNames {ns : List String} (hne : ns ≠ []) (h : ∀ n ∈ ns, '/' ∉ n.toList) :
    parts (ofNames ns) = "" :: ns := by
  have hsplit : (['/'].intercalate (ns.map String.toList)).splitOn '/' = ns.map String.toList :=
    List.splitOn_intercalate '/' (by simpa using h) (by simpa using hne)
  have hhead := List.splitOn_append_cons_self_of_not_mem (List.not_mem_nil : '/' ∉ [])
    (['/'].intercalate (ns.map String.toList))
  rw [List.nil_append] at hhead
  rw [parts, toList_ofNames, hhead, hsplit]
  simp [Function.comp_def]

/-- The path of plain names reads back as those names. -/
theorem names_ofNames {ns : List String} (h : ∀ n ∈ ns, Plain n) : names (ofNames ns) = ns := by
  cases ns with
  | nil => decide
  | cons n rest =>
    rw [names, parts_ofNames (List.cons_ne_nil n rest) (fun m hm => (h m hm).2.2.2), normalize,
      if_pos (Or.inl rfl), normalize_of_plain h, List.nil_append]

theorem ofNames_concat (ds : List String) (d : String) :
    ofNames (ds ++ [d]) = (if ds = [] then "/" else ofNames ds ++ "/") ++ d := by
  by_cases hds : ds = []
  · simp [hds, ofNames]
  · simp only [ofNames, if_neg hds, String.intercalate_append_of_ne_nil hds (List.cons_ne_nil d []),
      String.intercalate_singleton, String.append_assoc]

theorem endsWith_ofNames {ds : List String} {d : String} (hd : Plain d) :
    (ofNames (ds ++ [d])).endsWith "/" = false := by
  rw [Bool.eq_false_iff]
  intro hends
  have hsuffix : ['/'] <:+ (ofNames (ds ++ [d])).toList := by
    simpa [← String.endsWith_toSlice] using hends
  -- the path ends with the last unit of `d`, which is not a slash
  obtain ⟨c, hc⟩ : ∃ c, d.toList.getLast? = some c := by
    cases hlast : d.toList.getLast? with
    | none => exact absurd (List.getLast?_eq_none_iff.mp hlast) (by simpa using hd.1)
    | some c => exact ⟨c, rfl⟩
  rw [List.singleton_suffix_iff_getLast?_eq_some, ofNames_concat, String.toList_append,
    List.getLast?_append, hc, Option.some_or, Option.some_inj] at hsuffix
  subst hsuffix
  exact hd.2.2.2 (List.mem_of_getLast? hc)

theorem parent_ofNames {ns : List String} (h : ∀ n ∈ ns, Plain n) :
    parent (ofNames ns) = ofNames ns.dropLast := by
  rw [parent, names_ofNames h]

theorem baseName_ofNames {ns : List String} (h : ∀ n ∈ ns, Plain n) :
    baseName (ofNames ns) = ns.getLast?.getD "" := by
  rw [baseName, names_ofNames h]

theorem child_ofNames {ds : List String} (h : ∀ n ∈ ds, Plain n) (name : String) :
    child (ofNames ds) name = ofNames (ds ++ [name]) := by
  rw [child, ofNames_concat]
  rcases List.eq_nil_or_concat ds with rfl | ⟨front, last, rfl⟩
  · simp [ofNames]
  · rw [List.concat_eq_append] at h ⊢
    have hlast : Plain last := h last (by simp)
    have hends : (ofNames (front ++ [last])).endsWith "/" = false := endsWith_ofNames hlast
    have hslash : ofNames (front ++ [last]) ≠ "/" := by
      intro heq
      rw [heq] at hends
      simp [← String.endsWith_toSlice] at hends
    simp [hslash, hends]

theorem components_ofNames {ds : List String} {d : String} (h : ∀ n ∈ ds ++ [d], Plain n) :
    components (ofNames (ds ++ [d])) = (ds ++ [d], false) := by
  have hparts := parts_ofNames (by simp) (fun n hn => (h n hn).2.2.2)
  have hkept : (ds ++ [d]).filter (· ≠ "") = ds ++ [d] :=
    List.filter_eq_self.mpr (fun n hn => by simpa using (h n hn).1)
  have hends : (ofNames (ds ++ [d])).endsWith "/" = false := endsWith_ofNames (h d (by simp))
  simp only [components, hparts]
  rw [List.filter_cons_of_neg (by simp), hkept, hends]
  simp

end Path

namespace Node

theorem get?_append (n : Node) (xs ys : List String) :
    n.get? (xs ++ ys) = (n.get? xs).bind (·.get? ys) := by
  induction xs generalizing n with
  | nil => rfl
  | cons x xs ih =>
    cases n with
    | dir m entries =>
      simp only [List.cons_append, get?]
      cases entries.lookup x with
      | none => rfl
      | some child => exact ih child
    | file inode m bytes => rfl
    | link target => rfl
    | special m => rfl

theorem get?_dir_singleton (m : Nat) (entries : List (String × Node)) (name : String) :
    (dir m entries).get? [name] = entries.lookup name := by
  simp only [get?]
  cases entries.lookup name <;> rfl

end Node

namespace Volume

theorem node?_append_singleton {v : Volume} {loc : List String} {m : Nat}
    {entries : List (String × Node)} (hat : v.node? loc = some (.dir m entries)) (name : String) :
    v.node? (loc ++ [name]) = entries.lookup name := by
  simp only [node?, Node.get?_append] at hat ⊢
  rw [hat, Option.bind_some, Node.get?_dir_singleton]

/-- Whether a directory that may be passed through stands at a location. -/
def Searchable (v : Volume) (loc : List String) : Prop :=
  ∃ m entries, v.node? loc = some (.dir m entries) ∧ (Node.dir m entries).searchable = true

/-- The names of `ds`, read down from `done`, pass through directories that may be searched:
every location on the way, `done` and the last one included, is such a directory, and every
name is plain and short enough for an entry. -/
def Passable (v : Volume) (done : List String) : List String → Prop
  | [] => v.Searchable done
  | name :: rest =>
    v.Searchable done ∧ Path.Plain name ∧ Path.nameTooLong name = false ∧
      v.Passable (done ++ [name]) rest

theorem Passable.searchable {v : Volume} : {done ds : List String} → v.Passable done ds →
    v.Searchable done
  | _, [], h => h
  | _, _ :: _, h => h.1

theorem Passable.snoc {v : Volume} {name : String} (hplain : Path.Plain name)
    (hshort : Path.nameTooLong name = false) :
    {done ds : List String} → v.Passable done ds → v.Searchable (done ++ ds ++ [name]) →
      v.Passable done (ds ++ [name])
  | done, [], h, hnext => ⟨h, hplain, hshort, by simpa [Passable] using hnext⟩
  | done, x :: ds, ⟨hhere, hx, hxshort, hrest⟩, hnext =>
    ⟨hhere, hx, hxshort, Passable.snoc hplain hshort hrest (by simpa using hnext)⟩

theorem Passable.searchable_last {v : Volume} : {done ds : List String} → v.Passable done ds →
    v.Searchable (done ++ ds)
  | _, [], h => by simpa [Passable] using h
  | _, x :: ds, ⟨_, _, _, hrest⟩ => by simpa using hrest.searchable_last

theorem Passable.plain {v : Volume} : {done ds : List String} → v.Passable done ds →
    ∀ n ∈ ds, Path.Plain n
  | _, [], _ => fun _ h => absurd h List.not_mem_nil
  | _, x :: ds, ⟨_, hx, _, hrest⟩ => by
    intro n hn
    rcases List.mem_cons.mp hn with rfl | hn
    · exact hx
    · exact hrest.plain n hn

/-- One step of a lookup into a directory entry of a directory that may be searched. -/
theorem locate_cons_dir {v : Volume} {follow : Bool} {budget : Nat} {done rest : List String}
    {name : String} {m : Nat} {entries : List (String × Node)} (hhere : v.Searchable done)
    (hplain : Path.Plain name) (hshort : Path.nameTooLong name = false)
    (hat : v.node? (done ++ [name]) = some (.dir m entries)) :
    v.locate follow budget done (name :: rest) = v.locate follow budget (done ++ [name]) rest := by
  obtain ⟨m₀, entries₀, hdone, hsearch⟩ := hhere
  have hentry : entries₀.lookup name = some (.dir m entries) := by
    rw [← node?_append_singleton hdone name, hat]
  have hdots : ¬(name = "" ∨ name = ".") := by simp [hplain.1, hplain.2.1]
  rw [locate_cons, if_neg hdots, if_neg hplain.2.2.1]
  simp only [hdone, hsearch, hshort, hentry, Bool.not_true, Bool.false_eq_true, if_false]

/-- A file or a special file on the way of a lookup stops it. -/
theorem locate_cons_leaf {v : Volume} {follow : Bool} {budget : Nat} {done rest : List String}
    {name : String} {n : Node} (hhere : v.Searchable done)
    (hplain : Path.Plain name) (hshort : Path.nameTooLong name = false)
    (hat : v.node? (done ++ [name]) = some n) (hleaf : n.kind = .file ∨ n.kind = .other)
    (hrest : rest ≠ []) :
    v.locate follow budget done (name :: rest) = .error .notDirectory := by
  obtain ⟨m₀, entries₀, hdone, hsearch⟩ := hhere
  have hentry : entries₀.lookup name = some n := by
    rw [← node?_append_singleton hdone name, hat]
  have hdots : ¬(name = "" ∨ name = ".") := by simp [hplain.1, hplain.2.1]
  rw [locate_cons, if_neg hdots, if_neg hplain.2.2.1]
  cases n with
  | file inode m bytes => simp [hdone, hsearch, hshort, hentry, hrest]
  | special m => simp [hdone, hsearch, hshort, hentry, hrest]
  | dir m entries => simp [Node.kind] at hleaf
  | link target => simp [Node.kind] at hleaf

/-- Locating names that pass through searchable directories descends through them. -/
theorem locate_passable {v : Volume} {follow : Bool} {budget : Nat} (rest : List String) :
    {done ds : List String} → v.Passable done ds →
      v.locate follow budget done (ds ++ rest) = v.locate follow budget (done ++ ds) rest
  | done, [], _ => by simp
  | done, name :: ds, ⟨hhere, hplain, hshort, hrest⟩ => by
    obtain ⟨m, entries, hnext, -⟩ := hrest.searchable
    rw [List.cons_append, locate_cons_dir hhere hplain hshort hnext, locate_passable rest hrest,
      List.append_assoc, List.singleton_append]

/-- The last name of a lookup, in a directory that may be searched, is where the lookup ends
unless a link stands there to be followed. -/
theorem locate_last {v : Volume} {follow : Bool} {budget : Nat} {done : List String}
    {name : String} (hhere : v.Searchable done) (hplain : Path.Plain name)
    (hshort : Path.nameTooLong name = false)
    (hlink : follow = false ∨ ∀ target, v.node? (done ++ [name]) ≠ some (.link target)) :
    v.locate follow budget done [name] = .ok (done ++ [name], budget) := by
  obtain ⟨m, entries, hdone, hsearch⟩ := hhere
  have hdots : ¬(name = "" ∨ name = ".") := by simp [hplain.1, hplain.2.1]
  rw [node?_append_singleton hdone name] at hlink
  rw [locate_cons, if_neg hdots, if_neg hplain.2.2.1]
  simp only [hdone, hsearch, hshort, Bool.not_true, Bool.false_eq_true, if_false]
  cases hentry : entries.lookup name with
  | none => rfl
  | some n =>
    cases n with
    | dir m' entries' => simp
    | file inode m' bytes => rfl
    | special m' => rfl
    | link target =>
      rcases hlink with rfl | hlink
      · rfl
      · exact absurd hentry (hlink target)

/-- A lookup that ends at a name without following a link has passed a directory that may be
searched, and the name is short enough. -/
theorem locate_last_of_ok {v : Volume} {budget : Nat} {done : List String} {name : String}
    {r : List String × Nat} (hplain : Path.Plain name)
    (h : v.locate false budget done [name] = .ok r) :
    v.Searchable done ∧ Path.nameTooLong name = false ∧ r = (done ++ [name], budget) := by
  have hdots : ¬(name = "" ∨ name = ".") := by simp [hplain.1, hplain.2.1]
  rw [locate_cons, if_neg hdots, if_neg hplain.2.2.1] at h
  cases hdone : v.node? done with
  | none => simp [hdone] at h
  | some here =>
    cases here with
    | file inode m bytes => simp [hdone] at h
    | link target => simp [hdone] at h
    | special m => simp [hdone] at h
    | dir m entries =>
      by_cases hsearch : (Node.dir m entries).searchable = true
      · by_cases hshort : Path.nameTooLong name = true
        · simp [hdone, hsearch, hshort] at h
        · simp only [hdone, hsearch, hshort, Bool.not_true, Bool.false_eq_true, if_false] at h
          refine ⟨⟨m, entries, hdone, hsearch⟩, by simpa using hshort, ?_⟩
          cases hentry : entries.lookup name with
          | none => simpa [hentry] using h.symm
          | some n =>
            cases n with
            | dir m' entries' => simpa [hentry] using h.symm
            | file inode m' bytes => simpa [hentry] using h.symm
            | link target => simpa [hentry] using h.symm
            | special m' => simpa [hentry] using h.symm
      · simp [hdone, hsearch] at h

/-- The entry `name` of the directory at `ds`, reached from the top without a link: every
directory on the way may be searched, and every name is plain and short enough for an entry. -/
structure Reaches (v : Volume) (ds : List String) (name : String) : Prop where
  passable : v.Passable [] ds
  plain : Path.Plain name
  short : Path.nameTooLong name = false

theorem Passable.plain_snoc {v : Volume} {done ds : List String} {name : String}
    (h : v.Passable done ds) (hplain : Path.Plain name) : ∀ n ∈ ds ++ [name], Path.Plain n := by
  intro n hn
  rcases List.mem_append.mp hn with hn | hn
  · exact h.plain n hn
  · rw [List.mem_singleton.mp hn]
    exact hplain

theorem Reaches.plain_all {v : Volume} {ds : List String} {name : String} (h : v.Reaches ds name) :
    ∀ n ∈ ds ++ [name], Path.Plain n :=
  h.passable.plain_snoc h.plain

/-- A lookup of a reached entry ends there, unless a link stands there to be followed. -/
theorem find_reaches {v : Volume} {ds : List String} {name : String} {follow : Bool}
    (h : v.Reaches ds name) (hlong : Path.tooLong (Path.ofNames (ds ++ [name])) = false)
    (hlink : follow = false ∨ ∀ target, v.node? (ds ++ [name]) ≠ some (.link target)) :
    v.find (Path.ofNames (ds ++ [name])) follow = .ok (ds ++ [name]) := by
  have hlast : v.locate follow linkLimit ds [name] = .ok (ds ++ [name], linkLimit) :=
    locate_last (by simpa using h.passable.searchable_last) h.plain h.short hlink
  rw [find, if_neg (by simp [hlong]),
    Path.parts_ofNames (by simp) (fun n hn => (h.plain_all n hn).2.2.2), locate_cons,
    if_pos (Or.inl rfl), locate_passable [name] h.passable, List.nil_append, hlast]
  rfl

/-- What a lookup that succeeds has checked: the path holds no NUL and is not too long, and
its location holds the node. -/
theorem lookup_eq_ok {v : Volume} {call p : String} {follow : Bool} {n : Node}
    (h : v.lookup call p follow = .ok n) :
    SysFault.nulIn? call "path" p = none ∧ Path.tooLong p = false ∧
      ∃ loc b, v.locate follow linkLimit [] (Path.parts p) = .ok (loc, b) ∧ v.node? loc = some n := by
  unfold lookup at h
  cases hnul : SysFault.nulIn? call "path" p with
  | some f => simp [hnul] at h
  | none =>
    simp only [hnul] at h
    unfold find at h
    by_cases hlong : Path.tooLong p = true
    · simp [hlong] at h
    · simp only [hlong, Bool.false_eq_true, if_false] at h
      refine ⟨rfl, by simpa using hlong, ?_⟩
      cases hlocate : v.locate follow linkLimit [] (Path.parts p) with
      | error e => simp [hlocate, Except.map] at h
      | ok r =>
        simp only [hlocate, Except.map] at h
        cases hat : v.node? r.1 with
        | none => simp [hat] at h
        | some n' =>
          simp only [hat, Except.ok.injEq] at h
          exact ⟨r.1, r.2, rfl, h ▸ hat⟩

/-- What the canonical path search has checked of the names it has read: none at all, or an
entry reached from the top without a link, holding a node that is not a link, whose path a
lookup accepts. -/
def Resolved (v : Volume) (loc : List String) : Prop :=
  loc = [] ∨ ∃ ds name n, loc = ds ++ [name] ∧ v.Reaches ds name ∧
    v.lstat (Path.ofNames loc) = .ok n ∧ v.node? loc = some n ∧ n.kind ≠ .link

theorem Resolved.plain {v : Volume} {loc : List String} (h : v.Resolved loc) :
    ∀ n ∈ loc, Path.Plain n := by
  rcases h with rfl | ⟨ds, name, n, rfl, hreach, -⟩
  · exact fun _ h => absurd h List.not_mem_nil
  · exact hreach.plain_all

theorem Resolved.passable {v : Volume} {loc : List String} (h : v.Resolved loc)
    (hsearch : v.Searchable loc) : v.Passable [] loc := by
  rcases h with rfl | ⟨ds, name, n, rfl, hreach, -⟩
  · exact hsearch
  · exact hreach.passable.snoc hreach.plain hreach.short (by simpa using hsearch)

/-- A node found by a name read after resolved ones, plain, stands at their location followed by
the name, which the top reaches without a link. -/
theorem Resolved.lstat_snoc {v : Volume} {done : List String} {name : String} {n : Node}
    (hdone : v.Resolved done) (hplain : Path.Plain name)
    (hlstat : v.lstat (Path.ofNames (done ++ [name])) = .ok n) :
    v.Reaches done name ∧ v.node? (done ++ [name]) = some n := by
  obtain ⟨-, -, loc, b, hlocate, hat⟩ := lookup_eq_ok hlstat
  have hplainAll : ∀ x ∈ done ++ [name], Path.Plain x := by
    intro x hx
    rcases List.mem_append.mp hx with hx | hx
    · exact hdone.plain x hx
    · rw [List.mem_singleton.mp hx]
      exact hplain
  rw [Path.parts_ofNames (by simp) (fun x hx => (hplainAll x hx).2.2.2), locate_cons,
    if_pos (Or.inl rfl)] at hlocate
  -- the lookup passes the names already resolved and then reads `name` in `done`
  have hlast : v.locate false linkLimit done [name] = .ok (loc, b) := by
    rcases hdone with rfl | ⟨ds, y, n₀, rfl, hreach, -, hat₀, hkind₀⟩
    · simpa using hlocate
    · rw [List.append_assoc, locate_passable _ hreach.passable, List.nil_append,
        List.singleton_append] at hlocate
      have hhere : v.Searchable ds := by simpa using hreach.passable.searchable_last
      cases n₀ with
      | dir m entries =>
        rwa [locate_cons_dir hhere hreach.plain hreach.short hat₀] at hlocate
      | file inode m bytes =>
        rw [locate_cons_leaf hhere hreach.plain hreach.short hat₀ (.inl rfl)
          (List.cons_ne_nil _ _)] at hlocate
        cases hlocate
      | special m =>
        rw [locate_cons_leaf hhere hreach.plain hreach.short hat₀ (.inr rfl)
          (List.cons_ne_nil _ _)] at hlocate
        cases hlocate
      | link target => exact absurd rfl hkind₀
  obtain ⟨hsearch, hshort, hr⟩ := locate_last_of_ok hplain hlast
  cases hr
  exact ⟨⟨hdone.passable hsearch, hplain, hshort⟩, hat⟩

/-- A name read after resolved ones, plain and not a link, is resolved with them. -/
theorem Resolved.snoc {v : Volume} {done : List String} {name : String} {n : Node}
    (hdone : v.Resolved done) (hplain : Path.Plain name)
    (hlstat : v.lstat (Path.ofNames (done ++ [name])) = .ok n) (hkind : n.kind ≠ .link) :
    v.Resolved (done ++ [name]) := by
  obtain ⟨hreach, hat⟩ := hdone.lstat_snoc hplain hlstat
  exact Or.inr ⟨done, name, n, rfl, hreach, hlstat, hat, hkind⟩

end Volume

/-! ## Searching name by name -/

section Fold

variable {α β ε : Type} {P : α → Prop} {Q : β → Prop} {f g : α → β → Except ε α}

theorem foldlM_cons_eq_ok {x : β} {xs : List β} {a r : α} :
    (x :: xs).foldlM f a = .ok r ↔ ∃ b, f a x = .ok b ∧ xs.foldlM f b = .ok r := by
  rw [List.foldlM_cons]
  cases f a x with
  | error e => simp [bind, Except.bind]
  | ok b => simp [bind, Except.bind]

/-- A search whose every step, on an item of `Q`, keeps `P` keeps `P`. -/
theorem foldlM_invariant (hf : ∀ a x b, P a → Q x → f a x = .ok b → P b) :
    ∀ {xs : List β} {a r : α}, P a → (∀ x ∈ xs, Q x) → xs.foldlM f a = .ok r → P r
  | [], a, r, ha, _, h => by
    cases h
    exact ha
  | x :: xs, a, r, ha, hQ, h => by
    obtain ⟨b, hb, hrest⟩ := foldlM_cons_eq_ok.mp h
    exact foldlM_invariant hf (hf a x b ha (hQ x List.mem_cons_self) hb)
      (fun y hy => hQ y (List.mem_cons_of_mem x hy)) hrest

/-- Two searches whose steps agree where `P` holds, on items of `Q`, agree, when the steps of the
first keep `P`. -/
theorem foldlM_congr (hf : ∀ a x b, P a → Q x → f a x = .ok b → P b)
    (hfg : ∀ a x, P a → Q x → f a x = g a x) :
    ∀ {xs : List β} {a : α}, P a → (∀ x ∈ xs, Q x) → xs.foldlM f a = xs.foldlM g a
  | [], _, _, _ => rfl
  | x :: xs, a, ha, hQ => by
    have hx : Q x := hQ x List.mem_cons_self
    rw [List.foldlM_cons, List.foldlM_cons, ← hfg a x ha hx]
    cases hb : f a x with
    | error e => rfl
    | ok b =>
      exact foldlM_congr hf hfg (hf a x b ha hx hb) fun y hy => hQ y (List.mem_cons_of_mem x hy)

end Fold

namespace Volume

/-- Reading a plain name after resolved names gives resolved names: a name that is no link is
resolved with them, and a link's target is read from the top, where no name is resolved yet,
through its plain names. -/
theorem readName_resolved {v : Volume} {fuel : Nat} :
    ∀ {reading : List (List String)} {done : List String} {name : String} {out : List String},
      v.Resolved done → Path.Plain name → v.readName fuel reading done name = .ok out →
        v.Resolved out := by
  induction fuel with
  | zero =>
    intro reading done name out _ _ h
    simp [readName] at h
  | succ fuel ih =>
    intro reading done name out hdone hplain h
    cases hlstat : v.lstat (Path.ofNames (done ++ [name])) with
    | error f => simp [readName, hlstat] at h
    | ok n =>
      cases n with
      | link target =>
        by_cases hin : done ++ [name] ∈ reading
        · simp [readName, hlstat, hin] at h
        cases hstat : v.stat (Path.ofNames (done ++ [name])) with
        | error f => simp [readName, hlstat, hin, hstat] at h
        | ok n' =>
          simp only [readName, hlstat, hin, hstat, if_false] at h
          exact foldlM_invariant (fun _ _ _ ha hx hb => ih ha hx hb) (Or.inl rfl)
            (Path.plain_of_mem_names _) h
      | file inode m bytes =>
        simp only [readName, hlstat, Except.ok.injEq] at h
        exact h ▸ hdone.snoc hplain hlstat (by simp [Node.kind])
      | dir m entries =>
        simp only [readName, hlstat, Except.ok.injEq] at h
        exact h ▸ hdone.snoc hplain hlstat (by simp [Node.kind])
      | special m =>
        simp only [readName, hlstat, Except.ok.injEq] at h
        exact h ▸ hdone.snoc hplain hlstat (by simp [Node.kind])

/-- The canonical path of a path is `/` or the path of a resolved location. -/
theorem realpath_resolved {v : Volume} {p t : String} (h : v.realpath p = .ok t) :
    ∃ loc, t = Path.ofNames loc ∧ v.Resolved loc := by
  unfold realpath at h
  cases hnul : SysFault.nulIn? "realpath" "path" p with
  | some f => simp [hnul] at h
  | none =>
    simp only [hnul] at h
    cases hfold : (Path.names p).foldlM (v.readName (v.nodeCount + 1) []) [] with
    | error f => simp [hfold, Except.map] at h
    | ok loc =>
      simp only [hfold, Except.map, Except.ok.injEq] at h
      exact ⟨loc, h.symm, foldlM_invariant (fun _ _ _ ha hx hb => readName_resolved ha hx hb)
        (Or.inl rfl) (Path.plain_of_mem_names p) hfold⟩

theorem nulIn?_eq_none {call argument call' argument' p : String}
    (h : SysFault.nulIn? call argument p = none) : SysFault.nulIn? call' argument' p = none := by
  unfold SysFault.nulIn? at h ⊢
  split at h
  · cases h
  · rw [if_neg ‹_›]

/-- A resolved location other than the top is a reached entry holding a node that is not a
link, and its path passes the checks of every lookup. -/
theorem Resolved.of_snoc {v : Volume} {ds : List String} {name : String}
    (h : v.Resolved (ds ++ [name])) :
    v.Reaches ds name ∧ SysFault.nulIn? "lstat" "path" (Path.ofNames (ds ++ [name])) = none ∧
      Path.tooLong (Path.ofNames (ds ++ [name])) = false ∧
      ∃ n, v.node? (ds ++ [name]) = some n ∧ n.kind ≠ .link := by
  rcases h with hnil | ⟨ds', name', n, heq, hreach, hlstat, hat, hkind⟩
  · simp at hnil
  · obtain ⟨rfl, hname⟩ := List.append_inj' heq rfl
    obtain rfl := List.singleton_inj.mp hname
    obtain ⟨hnul, hlong, -⟩ := lookup_eq_ok hlstat
    exact ⟨hreach, hnul, hlong, n, hat, hkind⟩

/-- A resolved location is found from its path, a last link followed or not. -/
theorem Resolved.find {v : Volume} {ds : List String} {name : String}
    (h : v.Resolved (ds ++ [name])) (follow : Bool) :
    v.find (Path.ofNames (ds ++ [name])) follow = .ok (ds ++ [name]) := by
  obtain ⟨hreach, -, hlong, n, hat, hkind⟩ := h.of_snoc
  refine find_reaches hreach hlong (Or.inr fun target hlink => hkind ?_)
  rw [hat] at hlink
  cases hlink
  rfl

/-- The node at a resolved location is what its path leads to. -/
theorem Resolved.stat {v : Volume} {ds : List String} {name : String} {n : Node}
    (h : v.Resolved (ds ++ [name])) (hat : v.node? (ds ++ [name]) = some n) :
    v.stat (Path.ofNames (ds ++ [name])) = .ok n := by
  obtain ⟨-, hnul, -⟩ := h.of_snoc
  simp only [Volume.stat, lookup, nulIn?_eq_none hnul, h.find true, hat]

end Volume

/-! ## Leaves that lookups tell apart only by kind

A lookup reads of a file or a special file only that it is neither a directory nor a link, so
volumes whose nodes send lookups the same way (`Volume.SameRoutes`) find the same locations,
fail the same way and search for the same canonical paths; putting a file where a file or a
special file stood is such a change (`sameRoutes_update_leaf`). -/

namespace Node

/-- What the course of a lookup reads of a node: a directory's permission bits, a link's
target, and of a file or a special file only that it is one. -/
def route : Node → Node
  | .dir m _ => .dir m []
  | .link target => .link target
  | _ => .file 0 0 []

/-- A file or a special file is no directory. -/
theorem kind_ne_dir_of_leaf {n : Node} (h : n.kind = .file ∨ n.kind = .other) : n.kind ≠ .dir := by
  rcases h with h | h <;> rw [h] <;> decide

end Node

namespace Volume

/-- Two volumes whose nodes send a lookup the same way at every location: a directory with the
same permission bits, a link with the same target, or a file or a special file. -/
def SameRoutes (v v' : Volume) : Prop :=
  ∀ l, (v'.node? l).map Node.route = (v.node? l).map Node.route

section Routes

variable {v v' : Volume}

theorem SameRoutes.symm (h : v.SameRoutes v') : v'.SameRoutes v := fun l => (h l).symm

theorem locateWith_congr (h : v.SameRoutes v') (follow : Bool) (budget : Nat)
    {next next' : List String → List String → Except Errno (List String × Nat)}
    (hnext : ∀ done todo, next' done todo = next done todo) (done todo : List String) :
    v'.locateWith follow budget next' done todo = v.locateWith follow budget next done todo := by
  induction todo generalizing done with
  | nil => rfl
  | cons part rest ih =>
    simp only [locateWith, ih, hnext]
    have hdone := h done
    -- the place reached is a directory with the same permission bits in both, or in neither
    cases hv : v.node? done with
    | none =>
      rw [hv, Option.map_none, Option.map_eq_none_iff] at hdone
      rw [hdone]
    | some here =>
      rw [hv, Option.map_some] at hdone
      obtain ⟨here', hv', hroute⟩ := Option.map_eq_some_iff.mp hdone
      rw [hv']
      cases here with
      | dir m entries =>
        obtain ⟨entries', rfl⟩ : ∃ entries', here' = .dir m entries' := by
          cases here' <;> simp [Node.route] at hroute
          subst hroute
          exact ⟨_, rfl⟩
        -- the entry read sends the lookup the same way in both
        have hentry := h (done ++ [part])
        rw [node?_append_singleton hv, node?_append_singleton hv'] at hentry
        simp only [Node.searchable, Node.mode]
        cases hlook : entries.lookup part with
        | none =>
          rw [hlook, Option.map_none, Option.map_eq_none_iff] at hentry
          rw [hentry]
          rfl
        | some child =>
          rw [hlook, Option.map_some] at hentry
          obtain ⟨child', hlook', hchild⟩ := Option.map_eq_some_iff.mp hentry
          rw [hlook']
          cases child <;> cases child' <;> simp [Node.route] at hchild <;> simp [hchild] <;> rfl
      | file => cases here' <;> simp [Node.route] at hroute ⊢
      | link => cases here' <;> simp [Node.route] at hroute ⊢
      | special => cases here' <;> simp [Node.route] at hroute ⊢

theorem locate_congr (h : v.SameRoutes v') (follow : Bool) (budget : Nat)
    (done todo : List String) :
    v'.locate follow budget done todo = v.locate follow budget done todo := by
  induction budget generalizing done todo with
  | zero => exact locateWith_congr h follow 0 (fun _ _ => rfl) done todo
  | succ b ih => exact locateWith_congr h follow (b + 1) ih done todo

theorem find_congr (h : v.SameRoutes v') (p : String) (follow : Bool) :
    v'.find p follow = v.find p follow := by
  simp only [find, locate_congr h]

/-- A lookup fails the same way on volumes of the same routes, and finds nodes of one route. -/
theorem lookup_congr (h : v.SameRoutes v') (call p : String) (follow : Bool) :
    (v'.lookup call p follow).map Node.route = (v.lookup call p follow).map Node.route := by
  unfold lookup
  rw [find_congr h]
  split
  · rfl
  · cases v.find p follow with
    | error e => rfl
    | ok loc =>
      have hloc := h loc
      cases hv : v.node? loc <;> cases hv' : v'.node? loc <;> simp_all [Except.map]

/-- Of a lookup on volumes of the same routes: an error in one is the error in the other. -/
theorem lookup_eq_error_congr (h : v.SameRoutes v') {call p : String} {follow : Bool}
    {f : SysFault} : v'.lookup call p follow = .error f ↔ v.lookup call p follow = .error f := by
  have hl := lookup_congr h call p follow
  cases hv : v.lookup call p follow <;> cases hv' : v'.lookup call p follow <;>
    simp_all [Except.map]

/-- Of a lookup on volumes of the same routes: a node found in one is found in the other with
the same route. -/
theorem lookup_eq_ok_congr (h : v.SameRoutes v') {call p : String} {follow : Bool} {n : Node}
    (hv : v.lookup call p follow = .ok n) :
    ∃ n', v'.lookup call p follow = .ok n' ∧ n'.route = n.route := by
  have hl := lookup_congr h call p follow
  cases hv' : v'.lookup call p follow with
  | error f => simp [hv, hv', Except.map] at hl
  | ok n' => exact ⟨n', rfl, by simpa [hv, hv', Except.map] using hl⟩

/-- Reading a name for its canonical path reads only routes: whether a node is a link, its
target, and whether a lookup succeeds. -/
theorem readName_congr (h : v.SameRoutes v') (fuel : Nat) :
    v'.readName fuel = v.readName fuel := by
  induction fuel with
  | zero => rfl
  | succ fuel ih =>
    funext reading done name
    simp only [readName, lstat, stat, ih]
    cases hv : v.lookup "lstat" (Path.ofNames (done ++ [name])) false with
    | error f => rw [(lookup_eq_error_congr h).mpr hv]
    | ok n =>
      obtain ⟨n', hv', hroute⟩ := lookup_eq_ok_congr h hv
      rw [hv']
      -- a link has the same target in both, and anything else ends the name in both
      cases n with
      | link target =>
        obtain rfl : n' = .link target := by
          cases n' <;> simp [Node.route] at hroute
          rw [hroute]
        cases hs : v.lookup "stat" (Path.ofNames (done ++ [name])) true with
        | error f => rw [(lookup_eq_error_congr h).mpr hs]
        | ok m =>
          obtain ⟨m', hs', -⟩ := lookup_eq_ok_congr h hs
          rw [hs']
      | file => cases n' <;> simp [Node.route] at hroute ⊢
      | dir => cases n' <;> simp [Node.route] at hroute ⊢
      | special => cases n' <;> simp [Node.route] at hroute ⊢

theorem realpath_congr (h : v.SameRoutes v') (hcount : v'.nodeCount = v.nodeCount) (p : String) :
    v'.realpath p = v.realpath p := by
  simp only [realpath, readName_congr h, hcount]

/-- Below a node that is no directory nothing stands. -/
theorem node?_below_of_not_dir {l rest : List String} {n : Node} (hat : v.node? l = some n)
    (hn : n.kind ≠ .dir) (hrest : rest ≠ []) : v.node? (l ++ rest) = none := by
  obtain ⟨name, more, rfl⟩ := List.exists_cons_of_ne_nil hrest
  simp only [node?, Node.get?_append] at hat ⊢
  rw [hat, Option.bind_some]
  cases n with
  | dir => exact absurd rfl hn
  | file => rfl
  | link => rfl
  | special => rfl

/-- Above a node stands a directory. -/
theorem node?_above {l rest : List String} {n : Node} (hat : v.node? (l ++ rest) = some n)
    (hrest : rest ≠ []) : ∃ m entries, v.node? l = some (.dir m entries) := by
  cases hl : v.node? l with
  | none =>
    simp only [node?, Node.get?_append] at hat hl
    rw [hl] at hat
    cases hat
  | some here =>
    cases here with
    | dir m entries => exact ⟨m, entries, rfl⟩
    | file => rw [node?_below_of_not_dir hl (by simp [Node.kind]) hrest] at hat; cases hat
    | link => rw [node?_below_of_not_dir hl (by simp [Node.kind]) hrest] at hat; cases hat
    | special => rw [node?_below_of_not_dir hl (by simp [Node.kind]) hrest] at hat; cases hat

/-- Putting a file or a special file where one stands changes no route. -/
theorem sameRoutes_update_leaf {loc : List String} {n x : Node} (hwf : v.WellFormed)
    (hat : v.node? loc = some n) (hn : n.kind = .file ∨ n.kind = .other)
    (hx : x.kind = .file ∨ x.kind = .other) : v.SameRoutes (v.update loc fun _ => some x) := by
  have hroute : ∀ y : Node, (y.kind = .file ∨ y.kind = .other) → y.route = .file 0 0 [] := by
    intro y hy
    cases y <;> simp [Node.kind] at hy <;> rfl
  -- the top is a directory, so the location is an entry of the directory above it
  obtain ⟨ds, name, rfl⟩ : ∃ ds name, loc = ds ++ [name] := by
    rcases List.eq_nil_or_concat loc with rfl | ⟨ds, name, rfl⟩
    · obtain ⟨m, entries, htop⟩ := hwf.top_dir
      simp only [node?, htop, Node.get?, Option.some.injEq] at hat
      subst hat
      simp [Node.kind] at hn
    · exact ⟨ds, name, List.concat_eq_append ..⟩
  have hself : (v.update (ds ++ [name]) fun _ => some x).node? (ds ++ [name]) = some x :=
    node?_update_self _ (by simp) (by simpa using node?_above hat (by simp))
  intro l
  by_cases hbelow : ds ++ [name] <+: l
  · -- at the location a leaf stands in both, and below it nothing
    obtain ⟨rest, rfl⟩ := hbelow
    rcases List.eq_nil_or_concat rest with rfl | ⟨more, last, rfl⟩
    · rw [List.append_nil, hself, hat, Option.map_some, Option.map_some, hroute x hx, hroute n hn]
    · rw [node?_below_of_not_dir hself (Node.kind_ne_dir_of_leaf hx) (by simp),
        node?_below_of_not_dir hat (Node.kind_ne_dir_of_leaf hn) (by simp)]
  by_cases habove : l <+: ds ++ [name]
  · -- a directory above keeps its permission bits
    obtain ⟨rest, hrest⟩ := habove
    have hne : l ≠ ds ++ [name] := fun heq => hbelow (heq ▸ List.prefix_refl _)
    have hrest_ne : rest ≠ [] := by
      rintro rfl
      exact hne (by simpa using hrest)
    obtain ⟨m, entries, hl⟩ := node?_above (hrest ▸ hat) hrest_ne
    obtain ⟨entries', hl'⟩ := node?_update_of_prefix (fun _ => some x) ⟨rest, hrest⟩ hne hl
    rw [hl, hl']
    rfl
  · rw [ node?_update_of_not_prefix _ hbelow habove]

end Routes

end Volume

end Reword
