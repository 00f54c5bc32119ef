import Mathlib
import Reword.Proofs.Traversal
import Reword.Proofs.ProperVolume
/-!
# A walk gives each path once

Three invariants of a walk, each kept by every step (`step_next_cases`, `step_found_cases` say
what a step can do) and so by every pull (`pull_preserves`) and every run of pulls
(`pulls_preserves`).

* The canonical paths entered never repeat (`pulls_visited_nodup`): entering adds a path only
  when it is not there, whether the listing that follows succeeds or not.
* The walk stays `Apart` from the files it has given: the entries waiting in a frame have
  plain, distinct names, each frame lies below the frames under it by a name no longer waiting
  there, and no entry waiting lies at or above a path given. So no path is given twice
  (`pulls_nodup`), however the volume changes between pulls, as long as every volume names the
  entries of a directory once and plainly (`Volume.Proper`). The argument is on the names of
  the paths (`Path.names_child`), never on the volume.
* On a volume that does not change the walk is `Sound`: every frame is a directory the walk
  `Meets` from its root, through directories and links to directories, every canonical path
  entered is that of such a directory, and so is a directory at which the walk stopped for good.

**The law** (`pulls_end_and_repeat_nothing`) puts these together with the measure of
`Reword.Proofs.Traversal`: a walk ends within `(n + 1) · (n + 2)` pulls on a volume of `n`
nodes, no pull runs out of steps, `Walk.all` is never cut short, and nothing is entered or given
twice.

What it does not give is that every pull returns. The search for a canonical path reads each
link's target on the text, so a link `c → s/../c` beside a link `s` to another directory leads,
through the volume, to that directory's sibling `c`, while the search reads `s/..` as the
directory holding `c` and comes back to `c` for ever. The walk meets `c` as a directory, and the
pull that enters it never returns; the walk marks it (`Walk.endless`), and only a directory it
meets whose search never ends is marked (`Sound.stalled`).

What is not kept: that every directory met is listed. A canonical path is marked before the
listing is tried, and it is found on the text of a link's target, so a link whose target
climbs out of another link (`c → /ws/x/s/../t` with `s → /ws/e/d`) is read as a directory it
does not lead to, here one that does not exist (`directory_behind_dotdot_link_never_listed`).
-/

namespace Reword

namespace Path

theorem normalize_append (names : List String) (xs ys : List String) :
    normalize names (xs ++ ys) = normalize (normalize names xs) ys := by
  induction xs generalizing names with
  | nil => rfl
  | cons part rest ih =>
    simp only [List.cons_append, normalize]
    split_ifs <;> exact ih _

theorem parts_append_slash (dir : String) {name : String} (h : '/' ∉ name.toList) :
    parts (dir ++ "/" ++ name) = parts dir ++ [name] := by
  have hsplit : (dir.toList ++ '/' :: name.toList).splitOn '/' =
      dir.toList.splitOn '/' ++ [name.toList] := by
    rw [List.splitOn_append_cons_self, List.splitOn_eq_singleton h]
  simp [parts, hsplit]

/-- The names of an entry's path are its directory's names and its own, whichever way the
directory's path is written. -/
theorem names_child (dir : String) {name : String} (h : Plain name) :
    names (child dir name) = names dir ++ [name] := by
  have hname : ∀ pre, normalize pre [name] = pre ++ [name] :=
    fun pre => normalize_of_plain (by simpa using h)
  unfold child
  split_ifs with hroot hslash
  · subst hroot
    rw [show "/" ++ name = "" ++ "/" ++ name by simp, names, parts_append_slash "" h.2.2.2,
      normalize_append, hname, show normalize [] (parts "") = names "/" by decide]
  · -- a directory written with a slash at its end: the empty name after it is dropped
    obtain ⟨l, hl⟩ : ['/'] <:+ dir.toList := by simpa [← String.endsWith_toSlice] using hslash
    have hdir : dir = String.ofList l ++ "/" ++ "" := by
      apply String.toList_inj.mp
      simp [← hl]
    rw [hdir, String.append_empty, String.append_assoc, ← String.append_assoc, names, names,
      parts_append_slash _ h.2.2.2,
      show String.ofList l ++ "/" = String.ofList l ++ "/" ++ "" by simp,
      parts_append_slash _ (by simp), normalize_append, normalize_append, hname]
    simp [normalize]
  · rw [names, parts_append_slash dir h.2.2.2, normalize_append, hname, names]

end Path

namespace Volume

/-- A listing of a proper volume names each entry once, by a plain name. -/
theorem Proper.readDir {v : Volume} (hv : v.Proper) {p : String}
    {entries : List (String × Kind)} (h : v.readDir p = .ok entries) :
    (entries.map Prod.fst).Nodup ∧ ∀ e ∈ entries, Path.Plain e.1 := by
  obtain ⟨loc, m, es, hat, rfl⟩ := readDir_eq_ok h
  obtain ⟨hnodup, hplain⟩ := hv.dir hat
  refine ⟨by simpa [Function.comp_def] using hnodup, fun e he => ?_⟩
  obtain ⟨e', he', rfl⟩ := List.mem_map.mp he
  exact hplain e' he'

end Volume

namespace Walk

/-! ## A walk keeps its root -/

theorem step_root {v : Volume} {w w' : Walk} {errors : List Diagnostic}
    (hstep : w.step v = .next w' errors) : w'.root = w.root := by
  rcases step_next_cases hstep with ⟨-, rfl⟩ | ⟨-, -, -, -, rfl⟩ |
    ⟨-, -, -, -, -, -, -, rfl | ⟨-, rfl⟩⟩
  · exact (enter_root _ v _).1
  · rfl
  · rfl
  · exact (enter_root _ v _).1

theorem pull_root (w : Walk) (v : Volume) : (w.pull v).walk.root = w.root := by
  refine @pull_preserves v (fun w' _ => w'.root = w.root) (fun _ _ _ _ hstep h => ?_) ?_ w [] rfl
  · exact (step_root hstep).trans h
  · intro _ _ _ _ hstep h
    obtain ⟨-, -, -, -, -, -, -, -, -, rfl⟩ := step_found_cases hstep
    exact h

theorem after_root (v : Volume) : ∀ (k : Nat) (w : Walk), (after v k w).root = w.root
  | 0, _ => rfl
  | k + 1, w => by rw [after_succ, after_root v k, pull_root]

/-- A walk that has not started has a measure of at most `(n + 1) · (n + 2)` on a volume of `n`
nodes. -/
theorem measure_start_le (host : Host) (root extension : String) (v : Volume) :
    (start host root extension).measure v ≤ (v.nodeCount + 1) * (v.nodeCount + 2) := by
  have hmul := Nat.mul_le_mul_left (v.nodeCount + 1) (fresh_le (start host root extension) v)
  have hwaiting : (start host root extension).waiting = 0 := rfl
  have hstarted : (start host root extension).started = false := rfl
  simp only [measure, hwaiting, hstarted, Bool.false_eq_true, ↓reduceIte]
  rw [Nat.mul_succ, Nat.mul_succ]
  omega

/-! ## Canonical paths are entered once -/

theorem enter_visited_nodup {w : Walk} (v : Volume) (dir : String) (h : w.visited.Nodup) :
    (w.enter v dir).1.visited.Nodup := by
  rcases enter_cases w v dir with hw | ⟨f, -, -, hw⟩ | ⟨real, -, hnew, hw | ⟨entries, -, hw⟩⟩ <;>
    rw [hw]
  · exact h
  · exact h
  · exact List.nodup_cons.mpr ⟨hnew, h⟩
  · exact List.nodup_cons.mpr ⟨hnew, h⟩

theorem step_visited_nodup {v : Volume} {w w' : Walk} {errors : List Diagnostic}
    (hstep : w.step v = .next w' errors) (h : w.visited.Nodup) : w'.visited.Nodup := by
  rcases step_next_cases hstep with ⟨-, rfl⟩ | ⟨-, -, -, -, rfl⟩ |
    ⟨-, -, -, -, -, -, -, rfl | ⟨-, rfl⟩⟩
  · exact enter_visited_nodup v _ h
  · exact h
  · exact h
  · exact enter_visited_nodup v _ h

/-- However the volume changes between pulls, the canonical paths entered never repeat. -/
theorem pulls_visited_nodup (vs : List Volume) {w : Walk} (h : w.visited.Nodup) :
    (pulls vs w).2.visited.Nodup := by
  refine pulls_preserves (fun _ => True) (fun w _ => w.visited.Nodup) ?_ vs w [] (fun _ _ => trivial) h
  intro v w given _ hw
  refine @pull_preserves v (fun w _ => w.visited.Nodup)
    (fun _ _ _ _ hstep => step_visited_nodup hstep) ?_ w given hw
  -- a step that gives a file enters nothing
  intro _ _ _ _ hstep hw
  obtain ⟨-, -, -, -, -, -, -, -, -, rfl⟩ := step_found_cases hstep
  exact hw

/-! ## No path is given twice -/

/-- A name list one name past `pre` lies at or above `pre ++ n :: rest` only with the name `n`. -/
theorem eq_of_concat_prefix {pre rest : List String} {m n : String}
    (h : pre ++ [m] <+: pre ++ n :: rest) : m = n :=
  (List.cons_prefix_cons.mp ((List.prefix_append_right_inj pre).mp h)).1

/-- What keeps a walk from giving a path twice, for the files `given` so far: the entries
waiting in a frame have plain, distinct names; each frame lies below every frame under it, by a
name no longer waiting there; no entry waiting lies at or above a path given; and the paths
given are distinct. Before the walk starts it has no frame and has given nothing. -/
structure Apart (w : Walk) (given : List String) : Prop where
  idle : w.started = false → w.stack = [] ∧ given = []
  plain : ∀ f ∈ w.stack, ∀ e ∈ f.pending, Path.Plain e.1
  nodup : ∀ f ∈ w.stack, (f.pending.map Prod.fst).Nodup
  nested : w.stack.Pairwise fun upper lower => ∃ n rest,
    Path.names upper.dir = Path.names lower.dir ++ n :: rest ∧ n ∉ lower.pending.map Prod.fst
  untaken : ∀ f ∈ w.stack, ∀ e ∈ f.pending, ∀ p ∈ given,
    ¬Path.names f.dir ++ [e.1] <+: Path.names p
  given_nodup : given.Nodup

section Apart

variable {w : Walk} {given : List String}

theorem apart_of_stack_nil (h : w.stack = []) : Apart w [] where
  idle _ := ⟨h, rfl⟩
  plain f hf := by simp [h] at hf
  nodup f hf := by simp [h] at hf
  nested := by simp [h]
  untaken _ _ _ _ _ hp := absurd hp List.not_mem_nil
  given_nodup := List.nodup_nil

theorem Apart.of_stack {w' : Walk} (h : Apart w given) (hstarted : w'.started = w.started)
    (hstack : w'.stack = w.stack) : Apart w' given where
  idle hs := hstack ▸ h.idle (hstarted ▸ hs)
  plain := hstack ▸ h.plain
  nodup := hstack ▸ h.nodup
  nested := hstack ▸ h.nested
  untaken := hstack ▸ h.untaken
  given_nodup := h.given_nodup

/-- Dropping every frame keeps a walk apart. -/
theorem Apart.drop_stack {w' : Walk} (h : Apart w given) (hstarted : w'.started = w.started)
    (hstack : w'.stack = []) : Apart w' given where
  idle hs := ⟨hstack, (h.idle (hstarted ▸ hs)).2⟩
  plain f hf := by simp [hstack] at hf
  nodup f hf := by simp [hstack] at hf
  nested := by simp [hstack]
  untaken f hf := by simp [hstack] at hf
  given_nodup := h.given_nodup

/-- Leaving the top frame keeps a walk apart. -/
theorem Apart.leave {f : Frame} {outer : List Frame} (h : Apart w given)
    (hstack : w.stack = f :: outer) : Apart { w with stack := outer } given := by
  have houter : ∀ g ∈ outer, g ∈ w.stack := fun g hg => hstack ▸ List.mem_cons_of_mem _ hg
  have hnested := h.nested
  rw [hstack, List.pairwise_cons] at hnested
  exact ⟨fun hs => absurd (h.idle hs).1 (by simp [hstack]), fun g hg => h.plain g (houter g hg),
    fun g hg => h.nodup g (houter g hg), hnested.2, fun g hg => h.untaken g (houter g hg),
    h.given_nodup⟩

/-- Taking the next entry of the top frame keeps a walk apart. -/
theorem Apart.take {dir : String} {e : String × Kind} {rest : List (String × Kind)}
    {outer : List Frame} (h : Apart w given) (hstack : w.stack = ⟨dir, e :: rest⟩ :: outer) :
    Apart { w with stack := ⟨dir, rest⟩ :: outer } given := by
  have htop : (⟨dir, e :: rest⟩ : Frame) ∈ w.stack := hstack ▸ List.mem_cons_self
  have houter : ∀ g ∈ outer, g ∈ w.stack := fun g hg => hstack ▸ List.mem_cons_of_mem _ hg
  have hnested := h.nested
  rw [hstack, List.pairwise_cons] at hnested
  refine ⟨fun hs => absurd (h.idle hs).1 (by simp [hstack]), ?_, ?_,
    List.pairwise_cons.mpr ⟨hnested.1, hnested.2⟩, ?_, h.given_nodup⟩
  · intro g hg x hx
    rcases List.mem_cons.mp hg with rfl | hg
    · exact h.plain _ htop x (List.mem_cons_of_mem e hx)
    · exact h.plain g (houter g hg) x hx
  · intro g hg
    rcases List.mem_cons.mp hg with rfl | hg
    · have htopNodup := h.nodup _ htop
      rw [List.map_cons] at htopNodup
      exact htopNodup.of_cons
    · exact h.nodup g (houter g hg)
  · intro g hg x hx
    rcases List.mem_cons.mp hg with rfl | hg
    · exact h.untaken _ htop x (List.mem_cons_of_mem e hx)
    · exact h.untaken g (houter g hg) x hx

/-- Pushing a frame that lies below every frame of the stack, by a name no longer waiting
there, and at or above no path given, keeps a walk apart. -/
theorem Apart.push {w' : Walk} {f : Frame} (h : Apart w given) (hstarted : w'.started = true)
    (hstack : w'.stack = f :: w.stack) (hplain : ∀ e ∈ f.pending, Path.Plain e.1)
    (hnodup : (f.pending.map Prod.fst).Nodup)
    (hbelow : ∀ g ∈ w.stack, ∃ n rest,
      Path.names f.dir = Path.names g.dir ++ n :: rest ∧ n ∉ g.pending.map Prod.fst)
    (hfree : ∀ p ∈ given, ¬Path.names f.dir <+: Path.names p) : Apart w' given := by
  refine ⟨fun hs => absurd (hstarted.symm.trans hs) (by decide), ?_, ?_, ?_, ?_, h.given_nodup⟩
  · intro g hg
    rw [hstack] at hg
    rcases List.mem_cons.mp hg with rfl | hg
    · exact hplain
    · exact h.plain g hg
  · intro g hg
    rw [hstack] at hg
    rcases List.mem_cons.mp hg with rfl | hg
    · exact hnodup
    · exact h.nodup g hg
  · rw [hstack]
    exact List.pairwise_cons.mpr ⟨hbelow, h.nested⟩
  · intro g hg x _ p hp hprefix
    rw [hstack] at hg
    rcases List.mem_cons.mp hg with rfl | hg
    · exact hfree p hp ((List.prefix_append _ _).trans hprefix)
    · exact h.untaken g hg x ‹_› p hp hprefix

/-- Entering a directory that lies below every frame, by a name no longer waiting there, and at
or above no path given, keeps a walk apart: its entries, read from a proper volume, have plain,
distinct names. -/
theorem Apart.enter {v : Volume} (hv : v.Proper) {dir : String} (h : Apart w given)
    (hstarted : w.started = true)
    (hbelow : ∀ g ∈ w.stack, ∃ n rest,
      Path.names dir = Path.names g.dir ++ n :: rest ∧ n ∉ g.pending.map Prod.fst)
    (hfree : ∀ p ∈ given, ¬Path.names dir <+: Path.names p) : Apart (w.enter v dir).1 given := by
  have hstarted' : (w.enter v dir).1.started = true := (enter_root w v dir).2.2.trans hstarted
  rcases enter_cases w v dir with hw | ⟨f, -, -, hw⟩ | ⟨real, -, -, hw | ⟨entries, hentries, hw⟩⟩
  · rw [hw]
    exact h
  · -- a search that never ends leaves nothing waiting
    exact h.drop_stack (by rw [hw]) (by rw [hw])
  · exact h.of_stack (by rw [hw]) (by rw [hw])
  · obtain ⟨hnodup, hplain⟩ := hv.readDir hentries
    have hperm := List.mergeSort_perm entries fun a b => !Text.unitLt b.1 a.1
    have hstack : (w.enter v dir).1.stack =
        ⟨dir, entries.mergeSort fun a b => !Text.unitLt b.1 a.1⟩ :: w.stack := by
      rw [hw]
    exact h.push hstarted' hstack (fun e he => hplain e (List.mem_mergeSort.mp he))
      ((hperm.map Prod.fst).nodup_iff.mpr hnodup) hbelow hfree

/-- The path of the entry a walk takes lies below every frame left, by a name no longer waiting
there. -/
theorem Apart.below_taken {dir name : String} {kind : Kind} {rest : List (String × Kind)}
    {outer : List Frame} (h : Apart w given)
    (hstack : w.stack = ⟨dir, (name, kind) :: rest⟩ :: outer) :
    ∀ g ∈ (⟨dir, rest⟩ :: outer : List Frame), ∃ n more,
      Path.names (Path.child dir name) = Path.names g.dir ++ n :: more ∧
        n ∉ g.pending.map Prod.fst := by
  have htop : (⟨dir, (name, kind) :: rest⟩ : Frame) ∈ w.stack := hstack ▸ List.mem_cons_self
  have hchild := Path.names_child dir (h.plain _ htop (name, kind) List.mem_cons_self)
  intro g hg
  rcases List.mem_cons.mp hg with rfl | hg
  · -- the frame the entry is taken from no longer waits for its name
    have hnodup := h.nodup _ htop
    simp only [List.map_cons, List.nodup_cons] at hnodup
    exact ⟨name, [], hchild, hnodup.1⟩
  · -- a frame further down, below which the top frame lies already
    have hnested := h.nested
    rw [hstack, List.pairwise_cons] at hnested
    obtain ⟨n, more, hnames, hn⟩ := hnested.1 g hg
    exact ⟨n, more ++ [name], by simp [hchild, hnames], hn⟩

/-- The path of the entry a walk takes is at or above no path given. -/
theorem Apart.taken_free {dir name : String} {kind : Kind} {rest : List (String × Kind)}
    {outer : List Frame} (h : Apart w given)
    (hstack : w.stack = ⟨dir, (name, kind) :: rest⟩ :: outer) :
    ∀ p ∈ given, ¬Path.names (Path.child dir name) <+: Path.names p := by
  have htop : (⟨dir, (name, kind) :: rest⟩ : Frame) ∈ w.stack := hstack ▸ List.mem_cons_self
  rw [Path.names_child dir (h.plain _ htop (name, kind) List.mem_cons_self)]
  exact h.untaken _ htop (name, kind) List.mem_cons_self

/-- No entry left waiting lies at or above the path of the entry a walk takes. -/
theorem Apart.not_prefix_taken {dir name : String} {kind : Kind} {rest : List (String × Kind)}
    {outer : List Frame} (h : Apart w given)
    (hstack : w.stack = ⟨dir, (name, kind) :: rest⟩ :: outer) :
    ∀ g ∈ (⟨dir, rest⟩ :: outer : List Frame), ∀ e ∈ g.pending,
      ¬Path.names g.dir ++ [e.1] <+: Path.names (Path.child dir name) := by
  intro g hg e he hprefix
  obtain ⟨n, more, hnames, hn⟩ := h.below_taken hstack g hg
  rw [hnames] at hprefix
  rw [← eq_of_concat_prefix hprefix] at hn
  exact hn (List.mem_map_of_mem he)

/-- Every step that goes on keeps a walk apart, on a proper volume. -/
theorem Apart.step_next {v : Volume} (hv : v.Proper) {w' : Walk} {errors : List Diagnostic}
    (hstep : w.step v = .next w' errors) (h : Apart w given) : Apart w' given := by
  rcases step_next_cases hstep with ⟨hstart, rfl⟩ | ⟨-, dir, outer, hstack, rfl⟩ |
    ⟨hstarted, dir, name, kind, rest, outer, hstack, rfl | ⟨-, rfl⟩⟩
  · -- the walk starts: it has no frame and has given nothing yet
    obtain ⟨hempty, rfl⟩ := h.idle hstart
    exact Apart.enter hv (apart_of_stack_nil hempty) rfl (by simp [hempty]) (by simp)
  · exact h.leave hstack
  · exact h.take hstack
  · exact Apart.enter hv (h.take hstack) hstarted (h.below_taken hstack) (h.taken_free hstack)

/-- A step that gives a file keeps a walk apart from the files given, the file added: it was
not given before. -/
theorem Apart.step_found {v : Volume} {w' : Walk} {path : String}
    (hstep : w.step v = .found path w') (h : Apart w given) : Apart w' (given ++ [path]) := by
  obtain ⟨hstarted, dir, name, kind, rest, outer, hstack, -, rfl, rfl⟩ := step_found_cases hstep
  have htake := h.take hstack
  refine ⟨fun hs => absurd (hstarted.symm.trans hs) (by decide), htake.plain, htake.nodup,
    htake.nested, ?_, ?_⟩
  · intro g hg e he p hp
    rcases List.mem_append.mp hp with hp | hp
    · exact htake.untaken g hg e he p hp
    · rw [List.mem_singleton.mp hp]
      exact h.not_prefix_taken hstack g hg e he
  · -- the path given now lies at or above no path given before, itself least of all
    have hnew : Path.child dir name ∉ given := fun hmem =>
      h.taken_free hstack _ hmem (List.prefix_refl _)
    exact h.given_nodup.append (List.nodup_singleton _) (List.disjoint_singleton.mpr hnew)

/-- A pull on a proper volume keeps a walk apart from the files given, its file added. -/
theorem Apart.pull {v : Volume} (hv : v.Proper) (h : Apart w given) :
    Apart (w.pull v).walk (given ++ (w.pull v).next.toList) :=
  pull_preserves Apart (fun _ _ _ _ hstep h => h.step_next hv hstep)
    (fun _ _ _ _ hstep h => h.step_found hstep) h

end Apart

/-- However the volumes change between pulls, as long as each is proper, a walk that has not
started gives no path twice. -/
theorem pulls_nodup {vs : List Volume} (hvs : ∀ v ∈ vs, v.Proper) {w : Walk}
    (hidle : w.stack = []) : (pulls vs w).1.Nodup := by
  have h := pulls_preserves Volume.Proper Apart (fun _ _ _ hv h => h.pull hv) vs w [] hvs
    (apart_of_stack_nil hidle)
  simpa using h.given_nodup

/-! ## Every directory entered is one the walk meets -/

/-- The directories a walk from `root` meets on a volume: the root, and every entry of a
directory met that is a directory, or a link that leads to one. -/
inductive Meets (v : Volume) (root : String) : String → Prop
  | root : Meets v root root
  | entry {dir name : String} {kind : Kind} {entries : List (String × Kind)} :
      Meets v root dir → v.readDir dir = .ok entries → (name, kind) ∈ entries →
      role v (Path.child dir name) kind = .ok .directory → Meets v root (Path.child dir name)

/-- What a walk on a volume that does not change keeps: every frame is a directory it meets,
listed, with its waiting entries among the listing; every canonical path entered is that of a
directory it meets; and a directory it stopped at is one it meets whose canonical path is
searched for ever. -/
structure Sound (v : Volume) (w : Walk) : Prop where
  frames : ∀ f ∈ w.stack, Meets v w.root f.dir ∧
    ∃ entries, v.readDir f.dir = .ok entries ∧ ∀ e ∈ f.pending, e ∈ entries
  entered : ∀ real ∈ w.visited, ∃ p, Meets v w.root p ∧ v.realpath p = .ok real
  stalled : ∀ dir, w.endless = some dir → Meets v w.root dir ∧
    ∃ f, v.realpath dir = .error f ∧ f.errno = .endless

section Sound

variable {v : Volume} {w : Walk}

theorem Sound.enter (h : Sound v w) {dir : String} (hdir : Meets v w.root dir) :
    Sound v (w.enter v dir).1 := by
  rcases enter_cases w v dir with hw | ⟨f, hf, hend, hw⟩ |
      ⟨real, hreal, -, hw | ⟨entries, hentries, hw⟩⟩ <;>
    rw [hw]
  · exact h
  · refine ⟨fun g hg => absurd hg List.not_mem_nil, h.entered, fun d hd => ?_⟩
    cases hd
    exact ⟨hdir, f, hf, hend⟩
  · refine ⟨h.frames, fun r hr => ?_, h.stalled⟩
    rcases List.mem_cons.mp hr with rfl | hr
    · exact ⟨dir, hdir, hreal⟩
    · exact h.entered r hr
  · refine ⟨fun f hf => ?_, fun r hr => ?_, h.stalled⟩
    · rcases List.mem_cons.mp hf with rfl | hf
      · exact ⟨hdir, entries, hentries, fun e he => List.mem_mergeSort.mp he⟩
      · exact h.frames f hf
    · rcases List.mem_cons.mp hr with rfl | hr
      · exact ⟨dir, hdir, hreal⟩
      · exact h.entered r hr

theorem Sound.leave {f : Frame} {outer : List Frame} (h : Sound v w)
    (hstack : w.stack = f :: outer) : Sound v { w with stack := outer } :=
  ⟨fun g hg => h.frames g (hstack ▸ List.mem_cons_of_mem _ hg), h.entered, h.stalled⟩

theorem Sound.take {dir : String} {e : String × Kind} {rest : List (String × Kind)}
    {outer : List Frame} (h : Sound v w) (hstack : w.stack = ⟨dir, e :: rest⟩ :: outer) :
    Sound v { w with stack := ⟨dir, rest⟩ :: outer } := by
  refine ⟨fun g hg => ?_, h.entered, h.stalled⟩
  rcases List.mem_cons.mp hg with rfl | hg
  · obtain ⟨hmeets, entries, hentries, hpending⟩ := h.frames _ (hstack ▸ List.mem_cons_self)
    exact ⟨hmeets, entries, hentries, fun x hx => hpending x (List.mem_cons_of_mem e hx)⟩
  · exact h.frames g (hstack ▸ List.mem_cons_of_mem _ hg)

/-- Every step keeps a walk sound on a volume that does not change. -/
theorem Sound.step_next {w' : Walk} {errors : List Diagnostic}
    (hstep : w.step v = .next w' errors) (h : Sound v w) : Sound v w' := by
  rcases step_next_cases hstep with ⟨-, rfl⟩ | ⟨-, dir, outer, hstack, rfl⟩ |
    ⟨-, dir, name, kind, rest, outer, hstack, rfl | ⟨hrole, rfl⟩⟩
  · exact Sound.enter (w := { w with started := true }) ⟨h.frames, h.entered, h.stalled⟩ Meets.root
  · exact h.leave hstack
  · exact h.take hstack
  · -- the entry taken is listed in its frame's directory, and is a directory
    obtain ⟨hmeets, entries, hentries, hpending⟩ := h.frames _ (hstack ▸ List.mem_cons_self)
    exact (h.take hstack).enter
      (Meets.entry hmeets hentries (hpending _ List.mem_cons_self) hrole)

theorem Sound.step_found {w' : Walk} {path : String} (hstep : w.step v = .found path w')
    (h : Sound v w) : Sound v w' := by
  obtain ⟨-, dir, name, kind, rest, outer, hstack, -, -, rfl⟩ := step_found_cases hstep
  exact h.take hstack

/-- Pulling a sound walk on the volume it is sound on keeps it sound. -/
theorem Sound.after (h : Sound v w) (k : Nat) : Sound v (after v k w) := by
  refine pulls_preserves (· = v) (fun w _ => Sound v w) ?_ (List.replicate k v) w []
    (fun _ hv' => List.eq_of_mem_replicate hv') h
  intro v' w given hv' hw
  rw [hv']
  exact @pull_preserves v (fun w _ => Sound v w) (fun _ _ _ _ hstep h => h.step_next hstep)
    (fun _ _ _ _ hstep h => h.step_found hstep) w given hw

end Sound

/-! ## The walk pulled to its end -/

/-- A walk from a root, pulled on a volume that does not change, gives no file from some pull
on, within `(n + 1) · (n + 2)` pulls for a volume of `n` nodes; no pull runs out of steps, a pull
being what stepping as long as it takes gives, and pulling to the end with more pulls than
`Walk.pullLimit` gives what `Walk.all` gives; every canonical path it enters is that of a
directory it meets from its root through directories and links to directories, and a directory
it stops at for good is one it meets whose canonical path is searched for ever; and however the
volume changes between pulls, it enters no canonical path twice and, on volumes that name each
entry of a directory once and plainly, gives no path twice. -/
theorem pulls_end_and_repeat_nothing (host : Host) (root extension : String) :
    let w := start host root extension
    (∀ v : Volume, ∃ n ≤ (v.nodeCount + 1) * (v.nodeCount + 2),
      ∀ k, n ≤ k → ((after v k w).pull v).next = none) ∧
    (∀ (v : Volume) (w' : Walk) (fuel : Nat), w'.measure v < fuel →
      w'.pull v = advance v fuel w' []) ∧
    (∀ (v : Volume) (fuel : Nat), pullLimit v ≤ fuel → w.all v = drain v fuel w [] []) ∧
    (∀ (v : Volume) (k : Nat),
      (∀ real ∈ (after v k w).visited, ∃ p, Meets v w.root p ∧ v.realpath p = .ok real) ∧
      ∀ dir, (after v k w).endless = some dir → Meets v w.root dir ∧
        ∃ f, v.realpath dir = .error f ∧ f.errno = .endless) ∧
    (∀ vs : List Volume, (pulls vs w).2.visited.Nodup) ∧
    (∀ vs : List Volume, (∀ v ∈ vs, v.Proper) → (pulls vs w).1.Nodup) := by
  intro w
  refine ⟨fun v => ?_, fun v w' fuel h => pull_eq_advance h,
    fun v fuel h => all_start_eq_drain host root extension v h, fun v k => ?_,
    fun vs => pulls_visited_nodup vs List.nodup_nil, fun vs hvs => pulls_nodup hvs rfl⟩
  · obtain ⟨n, hn, hend⟩ := ends_within_measure v w
    exact ⟨n, hn.trans (measure_start_le host root extension v), hend⟩
  · -- a walk that has not started has no frame, has entered nothing and has not stopped
    have hsound : Sound v (after v k w) :=
      Sound.after ⟨fun _ hf => absurd hf List.not_mem_nil, fun _ hr => absurd hr List.not_mem_nil,
        fun _ hd => by cases hd⟩ k
    rw [← after_root v k w]
    exact ⟨hsound.entered, hsound.stalled⟩

/-- A link `c → /ws/x/s/../t`, where `s` links to `/ws/e/d`, leads to the directory `/ws/e/t`
and holds `f.kt`, but its canonical path is read on the text as `/ws/x/t`, which does not
exist: the walk from `/ws/r` meets the directory and ends at its first pull with no file,
having entered only its root. -/
theorem directory_behind_dotdot_link_never_listed :
    let v : Volume := ⟨.dir 0o755 [("ws", .dir 0o755 [
      ("e", .dir 0o755 [("d", .dir 0o755 []), ("t", .dir 0o755 [("f.kt", .file 1 0o644 [120])])]),
      ("x", .dir 0o755 [("s", .link "/ws/e/d")]),
      ("r", .dir 0o755 [("c", .link "/ws/x/s/../t")])])]⟩
    let w := start (Host.standard "/" 7) "/ws/r" ".kt"
    Meets v w.root "/ws/r/c" ∧ v.find "/ws/r/c" true = .ok ["ws", "e", "t"] ∧
      v.readDir "/ws/r/c" = .ok [("f.kt", .file)] ∧ (w.pull v).next = none ∧
      (w.pull v).walk.visited = ["/ws/r"] := by
  intro v w
  have hroot : w.root = "/ws/r" := by decide +kernel
  have hlist : v.readDir w.root = .ok [("c", .link)] := by rw [hroot]; decide +kernel
  have hrole : role v (Path.child w.root "c") .link = .ok .directory := by
    rw [hroot]; decide +kernel
  have hchild : Path.child w.root "c" = "/ws/r/c" := by rw [hroot]; decide +kernel
  refine ⟨hchild ▸ .entry .root hlist List.mem_cons_self hrole, ?_, ?_, ?_, ?_⟩ <;> decide +kernel

end Walk

end Reword
