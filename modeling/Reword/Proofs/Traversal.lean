import Mathlib
import Reword.Proofs.Canonical
/-!
# Walking a tree once

A walk follows links to directories, so the directories it meets need not form a tree: a link
may lead back to an ancestor, to itself, or round a cycle of other links. What keeps it finite
is the list of canonical paths it has entered: a directory is listed only when its canonical
path is not on that list, and the path goes on the list before the listing is tried, so a
listing that fails still counts.

**Some budget always suffices.** A pull steps at most `budget` times. The measure

    μ(w) = (entries waiting, each frame counting one more for leaving it)
           + (n + 1) · (locations of the volume whose path has not been entered)
           + (n + 2) while the walk has not started,

for a volume of `n` nodes, falls with every step (`step_measure`): taking an entry or leaving a
frame lowers the first summand by one; entering a directory pushes at most `n` entries but
enters a location never entered, which lowers the second summand by `n + 1`, since every
canonical path is the path of a location (`realpath_resolved`) and a volume has `n` locations.
The budget exceeds μ (`measure_lt_budget`), so a pull never runs out of steps
(`pull_eq_advance`), and a walk on a volume that does not change ends after at most μ pulls
(`ends_within_measure`). Its measure from the root is below `Walk.pullLimit`
(`measure_start_lt_pullLimit`), so draining it with that many pulls or more gives the same
(`all_start_eq_drain`).

**The search for a canonical path ends, or is known not to.** The search follows links on the
text of their targets, and it is given one more round than the volume has nodes. Every link it is
reading stands at a different location, so within that many rounds it either finishes or meets
again a link it is still reading, which is a search that would go on for ever (`readName_fuel`).
More rounds change nothing (`realpath_eq_search`). A directory whose search never ends stops the
walk for good (`Walk.endless`).

**At most once.** The entered paths never repeat (`pulls_visited_nodup`). The names of the entries
still to take are distinct, none lies below another, and none lies at or below a path already
taken (`Walk.Apart`), so a path is never given twice, however the volume changes between
pulls, as long as each volume names the entries of a directory once and plainly
(`Volume.Proper`).
-/

namespace Reword

namespace Node

mutual

/-- The locations below a node, itself included: one for each node it holds. -/
def locations : Node → List (List String)
  | .dir _ entries => [] :: entriesLocations entries
  | _ => [[]]

/-- The locations below directory entries, each under its name. -/
def entriesLocations : List (String × Node) → List (List String)
  | [] => []
  | (name, n) :: rest => n.locations.map (name :: ·) ++ entriesLocations rest

end

mutual

theorem length_locations : (n : Node) → n.locations.length = n.count
  | .file .. => rfl
  | .dir _ entries => by
    rw [locations, count, List.length_cons, length_entriesLocations entries, Nat.add_comm]
  | .link _ => rfl
  | .special _ => rfl

theorem length_entriesLocations : (entries : List (String × Node)) →
    (entriesLocations entries).length = entriesCount entries
  | [] => rfl
  | (name, n) :: rest => by
    rw [entriesLocations, entriesCount, List.length_append, List.length_map, length_locations n,
      length_entriesLocations rest]

end

theorem mem_entriesLocations_of_lookup {name : String} {child : Node} {rest : List String}
    (hrest : rest ∈ child.locations) :
    ∀ {entries : List (String × Node)}, entries.lookup name = some child →
      name :: rest ∈ entriesLocations entries
  | [], h => by simp at h
  | (k, n) :: es, h => by
    rw [entriesLocations, List.mem_append]
    by_cases hk : name = k
    · subst hk
      simp only [List.lookup_cons_self, Option.some.injEq] at h
      subst h
      exact .inl (List.mem_map.mpr ⟨rest, hrest, rfl⟩)
    · simp only [List.lookup, beq_false_of_ne hk] at h
      exact .inr (mem_entriesLocations_of_lookup hrest h)

/-- Every location that holds a node is one of the node's locations. -/
theorem mem_locations : (n : Node) → (loc : List String) → (n.get? loc).isSome →
    loc ∈ n.locations
  | .dir _ _, [], _ => List.mem_cons_self
  | .file .., [], _ => List.mem_singleton_self _
  | .link _, [], _ => List.mem_singleton_self _
  | .special _, [], _ => List.mem_singleton_self _
  | .dir _ entries, name :: rest, h => by
    simp only [get?] at h
    split at h
    · next child hchild =>
      exact List.mem_cons_of_mem _
        (mem_entriesLocations_of_lookup (mem_locations child rest h) hchild)
    · simp at h
  | .file .., _ :: _, h => by simp [get?] at h
  | .link _, _ :: _, h => by simp [get?] at h
  | .special _, _ :: _, h => by simp [get?] at h

theorem count_pos (n : Node) : 0 < n.count := by
  cases n <;> simp [count]

/-- Each entry counts at least itself. -/
theorem length_le_entriesCount : (entries : List (String × Node)) →
    entries.length ≤ entriesCount entries
  | [] => le_refl 0
  | (_, n) :: rest => by
    have := count_pos n
    have := length_le_entriesCount rest
    simp only [List.length_cons, entriesCount]
    omega

theorem count_le_entriesCount_of_lookup {name : String} {child : Node} :
    ∀ {entries : List (String × Node)}, entries.lookup name = some child →
      child.count ≤ entriesCount entries
  | [], h => by simp at h
  | (k, n) :: es, h => by
    rw [entriesCount]
    by_cases hk : name = k
    · subst hk
      simp only [List.lookup_cons_self, Option.some.injEq] at h
      subst h
      omega
    · simp only [List.lookup, beq_false_of_ne hk] at h
      have := count_le_entriesCount_of_lookup h
      omega

/-- A node below another counts no more nodes. -/
theorem count_get?_le : (n : Node) → (loc : List String) → {m : Node} → n.get? loc = some m →
    m.count ≤ n.count
  | n, [], _, h => by
    simp only [get?, Option.some.injEq] at h
    exact h ▸ le_refl _
  | .dir _ entries, name :: rest, m, h => by
    simp only [get?] at h
    split at h
    · next child hchild =>
      have := count_get?_le child rest h
      have := count_le_entriesCount_of_lookup hchild
      simp only [count]
      omega
    · simp at h
  | .file .., _ :: _, _, h => by simp [get?] at h
  | .link _, _ :: _, _, h => by simp [get?] at h
  | .special _, _ :: _, _, h => by simp [get?] at h

/-- Directory entries changed one by one, each keeping its name and its locations, keep the
locations of the whole. -/
theorem entriesLocations_map {g : String × Node → String × Node} :
    ∀ {entries : List (String × Node)},
      (∀ e ∈ entries, (g e).1 = e.1 ∧ (g e).2.locations = e.2.locations) →
        entriesLocations (entries.map g) = entriesLocations entries
  | [], _ => rfl
  | (name, n) :: rest, h => by
    have ih := entriesLocations_map fun e he => h e (List.mem_cons_of_mem _ he)
    obtain ⟨hname, hlocs⟩ := h (name, n) List.mem_cons_self
    rcases hg : g (name, n) with ⟨name', n'⟩
    rw [hg] at hname hlocs
    dsimp only at hname hlocs
    subst hname
    rw [List.map_cons, hg, entriesLocations, entriesLocations, ih, hlocs]

/-- Setting a node where a node of the same locations stands keeps the locations of the
entries, where each name stands once. -/
theorem entriesLocations_setEntry {entries : List (String × Node)} {name : String} {x y : Node}
    (hnodup : (entries.map Prod.fst).Nodup) (hy : entries.lookup name = some y)
    (hxy : x.locations = y.locations) :
    entriesLocations (setEntry entries name (some x)) = entriesLocations entries := by
  simp only [setEntry, any_of_lookup_eq_some hy, if_true]
  refine entriesLocations_map fun e he => ?_
  by_cases hname : e.1 = name
  · have he2 := eq_of_lookup_eq_some hnodup hy e he hname
    simp [hname, he2, hxy]
  · simp [hname]

/-- Putting a node where a node of the same locations stands keeps the locations, where each
name stands once: a file put where a file or a special file stood keeps them. -/
theorem locations_update_some (x : Node) :
    (n : Node) → (loc : List String) → ∀ {y}, n.distinct = true → n.get? loc = some y →
      x.locations = y.locations → (n.update (fun _ => some x) loc).locations = n.locations
  | n, [], _, _, _, _ => rfl
  | .dir m entries, [name], y, hd, hat, hxy => by
    obtain ⟨hnodup, -⟩ := distinct_dir_iff.mp hd
    rw [get?_dir_singleton] at hat
    simp only [update, locations, entriesLocations_setEntry hnodup hat hxy]
  | .dir m entries, name :: next :: rest, y, hd, hat, hxy => by
    obtain ⟨hnodup, hentries⟩ := distinct_dir_iff.mp hd
    cases hchild : entries.lookup name with
    | none => simp only [update, hchild]
    | some child =>
      have hchild_d : child.distinct = true := by
        obtain ⟨before, after, rfl, -⟩ := List.lookup_eq_some_iff.mp hchild
        exact hentries (name, child) (by simp)
      simp only [get?, hchild] at hat
      have hinner := locations_update_some x child (next :: rest) hchild_d hat hxy
      simp only [update, hchild, locations, entriesLocations_setEntry hnodup hchild hinner]
  | .file .., _ :: loc, _, _, _, _ => by cases loc <;> rfl
  | .link _, _ :: loc, _, _, _, _ => by cases loc <;> rfl
  | .special _, _ :: loc, _, _, _, _ => by cases loc <;> rfl

end Node

namespace Volume

/-- The locations of a volume: one for each of its nodes. -/
def locations (v : Volume) : List (List String) :=
  v.top.locations

theorem length_locations (v : Volume) : v.locations.length = v.nodeCount :=
  Node.length_locations v.top

theorem mem_locations {v : Volume} {loc : List String} (h : (v.node? loc).isSome) :
    loc ∈ v.locations :=
  Node.mem_locations v.top loc h

/-- A file put where a file or a special file stands keeps the locations of a well-formed
volume, and so its count of nodes. -/
theorem locations_update_leaf {v : Volume} {loc : List String} {n x : Node} (hwf : v.WellFormed)
    (hat : v.node? loc = some n) (hn : n.kind ≠ .dir) (hx : x.kind ≠ .dir) :
    (v.update loc fun _ => some x).locations = v.locations ∧
      (v.update loc fun _ => some x).nodeCount = v.nodeCount := by
  have hleaf : ∀ y : Node, y.kind ≠ .dir → y.locations = [[]] := by
    intro y hy
    cases y with
    | dir => exact absurd rfl hy
    | file => rfl
    | link => rfl
    | special => rfl
  have hlocs : (v.update loc fun _ => some x).locations = v.locations :=
    Node.locations_update_some x v.top loc hwf.distinct hat (by rw [hleaf x hx, hleaf n hn])
  refine ⟨hlocs, ?_⟩
  rw [← length_locations, ← length_locations, hlocs]

/-- A canonical path is the path of one of the volume's locations. -/
theorem realpath_mem_locations {v : Volume} {p real : String} (h : v.realpath p = .ok real) :
    ∃ loc ∈ v.locations, real = Path.ofNames loc := by
  obtain ⟨loc, rfl, hresolved⟩ := realpath_resolved h
  refine ⟨loc, mem_locations ?_, rfl⟩
  rcases hresolved with rfl | ⟨ds, name, n, rfl, -, -, hat, -⟩
  · rfl
  · simp [hat]

/-- The search for a canonical path never reaches its bound on readings: one reading inside
another is of a link not yet being read, and the links being read stand at distinct locations,
so fewer readings than the volume has nodes are ever open. With any more readings allowed the
search gives the same. -/
theorem readName_fuel {v : Volume} :
    ∀ {fuel fuel' : Nat} {reading : List (List String)} {done : List String} {name : String},
      v.Resolved done → Path.Plain name → reading.Nodup → (∀ l ∈ reading, l ∈ v.locations) →
      v.nodeCount < fuel + reading.length → v.nodeCount < fuel' + reading.length →
      v.readName fuel reading done name = v.readName fuel' reading done name
  | 0, _, reading, _, _, _, _, hnodup, hsub, hfuel, _ => by
    have hlen := (hnodup.subperm hsub).length_le
    rw [length_locations] at hlen
    omega
  | _, 0, reading, _, _, _, _, hnodup, hsub, _, hfuel' => by
    have hlen := (hnodup.subperm hsub).length_le
    rw [length_locations] at hlen
    omega
  | fuel + 1, fuel' + 1, reading, done, name, hdone, hplain, hnodup, hsub, hfuel, hfuel' => by
    cases hlstat : v.lstat (Path.ofNames (done ++ [name])) with
    | error f => simp only [readName, hlstat]
    | ok n =>
      cases n with
      | link target =>
        by_cases hin : done ++ [name] ∈ reading
        · simp only [readName, hlstat, hin, if_true]
        cases hstat : v.stat (Path.ofNames (done ++ [name])) with
        | error f => simp only [readName, hlstat, hin, hstat, if_false]
        | ok n' =>
          simp only [readName, hlstat, hin, hstat, if_false]
          -- the link's location joins the readings open, which stay distinct locations
          have hat := (hdone.lstat_snoc hplain hlstat).2
          have hloc : done ++ [name] ∈ v.locations := mem_locations (by simp [hat])
          have hnodup' : ((done ++ [name]) :: reading).Nodup := List.nodup_cons.mpr ⟨hin, hnodup⟩
          have hsub' : ∀ l ∈ (done ++ [name]) :: reading, l ∈ v.locations :=
            List.forall_mem_cons.mpr ⟨hloc, hsub⟩
          refine foldlM_congr (fun _ _ _ ha hx hb => readName_resolved ha hx hb)
            (fun _ _ ha hx => readName_fuel ha hx hnodup' hsub' ?_ ?_) (Or.inl rfl)
            (Path.plain_of_mem_names _)
          · simp only [List.length_cons]
            omega
          · simp only [List.length_cons]
            omega
      | file inode m bytes => simp only [readName, hlstat]
      | dir m entries => simp only [readName, hlstat]
      | special m => simp only [readName, hlstat]

/-- The canonical path of a path is what the search gives with any bound on readings beyond the
volume's nodes. -/
theorem realpath_eq_search (v : Volume) (p : String) {fuel : Nat} (hfuel : v.nodeCount < fuel) :
    v.realpath p = if let some f := SysFault.nulIn? "realpath" "path" p then .error f
      else ((Path.names p).foldlM (v.readName fuel []) []).map Path.ofNames := by
  have hsearch : (Path.names p).foldlM (v.readName (v.nodeCount + 1) []) [] =
      (Path.names p).foldlM (v.readName fuel []) [] :=
    foldlM_congr (fun _ _ _ ha hx hb => readName_resolved ha hx hb)
      (fun _ _ ha hx => readName_fuel ha hx List.nodup_nil (by simp) (by simp) (by simpa using hfuel))
      (Or.inl rfl) (Path.plain_of_mem_names p)
  -- the two sides test for a NUL alike; past the test, they search alike
  unfold realpath
  cases SysFault.nulIn? "realpath" "path" p with
  | some f => rfl
  | none => simp only [hsearch]

/-- A listing is the entries of a directory of the volume, with their kinds. -/
theorem readDir_eq_ok {v : Volume} {p : String} {entries : List (String × Kind)}
    (h : v.readDir p = .ok entries) :
    ∃ loc m es, v.node? loc = some (.dir m es) ∧ entries = es.map fun e => (e.1, e.2.kind) := by
  unfold readDir at h
  split at h
  · cases h
  · next n m es hlookup =>
    obtain ⟨-, -, loc, -, -, hat⟩ := lookup_eq_ok hlookup
    split at h
    · cases h
      exact ⟨loc, m, es, hat, rfl⟩
    · cases h
  · cases h

/-- A listing has fewer entries than the volume has nodes. -/
theorem length_readDir_lt {v : Volume} {p : String} {entries : List (String × Kind)}
    (h : v.readDir p = .ok entries) : entries.length + 1 ≤ v.nodeCount := by
  obtain ⟨loc, m, es, hat, rfl⟩ := readDir_eq_ok h
  have hcount := Node.count_get?_le v.top loc hat
  have hlen := Node.length_le_entriesCount es
  simp only [Node.count] at hcount
  simp only [List.length_map, nodeCount]
  omega

end Volume

namespace Walk

/-! ## One step of a walk -/

/-- What one step of a walk does. -/
inductive Step where
  /-- The walk reaches a file it gives. -/
  | found (path : String) (w : Walk)
  /-- The walk is at its end. -/
  | ended
  /-- The walk goes on, having met these diagnostics. -/
  | next (w : Walk) (errors : List Diagnostic)

/-- One step of a walk on a volume: `advance` takes these steps one after another. -/
def step (v : Volume) (w : Walk) : Step :=
  if !w.started then
    let (w', found) := enter { w with started := true } v w.root
    .next w' found
  else
    match w.stack with
    | [] => .ended
    | ⟨_, []⟩ :: outer => .next { w with stack := outer } []
    | ⟨dir, (name, kind) :: rest⟩ :: outer =>
      let w' := { w with stack := ⟨dir, rest⟩ :: outer }
      let path := Path.child dir name
      match role v path kind with
      | .error f => .next w' [fault f path]
      | .ok .directory =>
        let (w'', found) := enter w' v path
        .next w'' found
      | .ok .file => if Text.endsWithUnits name w'.extension then .found path w' else .next w' []
      | .ok .other => .next w' []

/-- With a step left, `advance` takes the walk's step. -/
theorem advance_succ (v : Volume) (fuel : Nat) (w : Walk) (errors : List Diagnostic) :
    advance v (fuel + 1) w errors =
      match w.step v with
      | .found path w' => ⟨some path, errors, w'⟩
      | .ended => ⟨none, errors, w⟩
      | .next w' found => advance v fuel w' (errors ++ found) := by
  obtain ⟨root, extension, started, visited, stack, endless⟩ := w
  cases started
  · simp only [advance, step, Bool.not_false, if_true]
  · rcases stack with _ | ⟨⟨dir, _ | ⟨⟨name, kind⟩, rest⟩⟩, outer⟩
    · rfl
    · simp [advance, step]
    · simp only [advance, step, Bool.not_true, Bool.false_eq_true, if_false]
      rcases role v (Path.child dir name) kind with f | _ | _ | _
      · rfl
      · rfl
      · by_cases hext : Text.endsWithUnits name extension = true <;> simp [hext]
      · simp

/-- A walk is at its end exactly when it has started and has no frame left. -/
theorem step_eq_ended {v : Volume} {w : Walk} :
    w.step v = .ended ↔ w.started = true ∧ w.stack = [] := by
  obtain ⟨root, extension, started, visited, stack, endless⟩ := w
  cases started
  · simp [step]
  · rcases stack with _ | ⟨⟨dir, _ | ⟨⟨name, kind⟩, rest⟩⟩, outer⟩
    · simp [step]
    · simp [step]
    · simp only [step, Bool.not_true, Bool.false_eq_true, if_false]
      rcases role v (Path.child dir name) kind with f | _ | _ | _
      · simp
      · simp
      · by_cases hext : Text.endsWithUnits name extension = true <;> simp [hext]
      · simp

/-- How entering a directory changes a walk: not at all, when the directory's canonical path
cannot be found or was entered already; when the search for it never ends, the walk is left
with nothing to take and marked; otherwise the path is marked entered, and the directory's
entries, sorted by name, are pushed when it can be listed. -/
theorem enter_cases (w : Walk) (v : Volume) (dir : String) :
    (w.enter v dir).1 = w ∨
    (∃ f, v.realpath dir = .error f ∧ f.errno = .endless ∧
      (w.enter v dir).1 = { w with stack := [], endless := some dir }) ∨
    ∃ real, v.realpath dir = .ok real ∧ real ∉ w.visited ∧
      ((w.enter v dir).1 = { w with visited := real :: w.visited } ∨
        ∃ entries, v.readDir dir = .ok entries ∧
          (w.enter v dir).1 = { w with
            visited := real :: w.visited
            stack := ⟨dir, entries.mergeSort fun a b => !Text.unitLt b.1 a.1⟩ :: w.stack }) := by
  unfold enter
  split
  · next f hf =>
    split
    · next hend => exact .inr (.inl ⟨f, hf, hend, rfl⟩)
    · exact .inl rfl
  · next real hreal =>
    split
    · exact .inl rfl
    · next hnew =>
      refine .inr (.inr ⟨real, hreal, hnew, ?_⟩)
      split
      · exact .inl rfl
      · next entries hentries => exact .inr ⟨entries, hentries, rfl⟩

theorem enter_root (w : Walk) (v : Volume) (dir : String) :
    (w.enter v dir).1.root = w.root ∧ (w.enter v dir).1.extension = w.extension ∧
      (w.enter v dir).1.started = w.started := by
  rcases enter_cases w v dir with h | ⟨f, -, -, h⟩ | ⟨real, -, -, h | ⟨entries, -, h⟩⟩ <;>
    rw [h] <;> exact ⟨rfl, rfl, rfl⟩

/-! ## The measure of a walk -/

/-- The entries a walk still has to take, each frame counting one more for leaving it. -/
def waiting (w : Walk) : Nat :=
  (w.stack.map fun f => f.pending.length + 1).foldr (· + ·) 0

/-- The locations of a volume whose paths a walk has not entered. -/
def fresh (w : Walk) (v : Volume) : Nat :=
  (v.locations.filter fun loc => Path.ofNames loc ∉ w.visited).length

/-- A bound on the steps left to a walk on a volume that does not change. -/
def measure (w : Walk) (v : Volume) : Nat :=
  w.waiting + (v.nodeCount + 1) * w.fresh v + if w.started then 0 else v.nodeCount + 2

theorem waiting_of_stack {w w' : Walk} {f : Frame} (h : w.stack = f :: w'.stack) :
    w.waiting = f.pending.length + 1 + w'.waiting := by
  simp [waiting, h]

/-- Taking an entry of the top frame lowers the entries waiting by one. -/
theorem waiting_take {w w' : Walk} {dir : String} {e : String × Kind} {rest : List (String × Kind)}
    {outer : List Frame} (h : w.stack = ⟨dir, e :: rest⟩ :: outer)
    (h' : w'.stack = ⟨dir, rest⟩ :: outer) : w.waiting = w'.waiting + 1 := by
  simp only [waiting, h, h', List.map_cons, List.foldr_cons, List.length_cons]
  omega

theorem fresh_le (w : Walk) (v : Volume) : w.fresh v ≤ v.nodeCount :=
  (List.length_filter_le _ _).trans_eq v.length_locations

/-- Entering the path of a location not entered before leaves one location fewer fresh. -/
theorem fresh_lt_of_mark {w w' : Walk} {v : Volume} {real : String}
    (hloc : ∃ loc ∈ v.locations, real = Path.ofNames loc) (hnew : real ∉ w.visited)
    (hvisited : w'.visited = real :: w.visited) : w'.fresh v < w.fresh v := by
  obtain ⟨loc, hloc, rfl⟩ := hloc
  have hsub : v.locations.filter (fun l => Path.ofNames l ∉ w'.visited) =
      (v.locations.filter fun l => Path.ofNames l ∉ w.visited).filter
        fun l => Path.ofNames l ∉ w'.visited := by
    rw [List.filter_filter]
    congr 1
    funext l
    by_cases hl : Path.ofNames l ∈ w.visited <;> simp [hvisited, hl]
  unfold fresh
  rw [hsub]
  apply List.length_filter_lt_length_iff_exists.mpr
  exact ⟨loc, List.mem_filter.mpr ⟨hloc, by simpa using hnew⟩, by simp [hvisited]⟩

/-- Entering a directory never raises what remains of the measure once started: it pushes no
more entries than the volume has nodes, and only with a location never entered; a search that
never ends leaves nothing to take. -/
theorem enter_measure (w : Walk) (v : Volume) (dir : String) :
    (w.enter v dir).1.waiting + (v.nodeCount + 1) * (w.enter v dir).1.fresh v ≤
      w.waiting + (v.nodeCount + 1) * w.fresh v := by
  rcases enter_cases w v dir with h | ⟨f, -, -, h⟩ | ⟨real, hreal, hnew, h | ⟨entries, hentries, h⟩⟩
  · rw [h]
  · rw [h]
    simp [waiting, fresh]
  · have hlt := fresh_lt_of_mark (Volume.realpath_mem_locations hreal) hnew
      (show (w.enter v dir).1.visited = real :: w.visited by rw [h])
    have hwaiting : (w.enter v dir).1.waiting = w.waiting := by rw [h]; rfl
    have hmul := Nat.mul_le_mul_left (v.nodeCount + 1) (Nat.le_of_lt hlt)
    omega
  · have hlt := fresh_lt_of_mark (Volume.realpath_mem_locations hreal) hnew
      (show (w.enter v dir).1.visited = real :: w.visited by rw [h])
    have hmul := Nat.mul_le_mul_left (v.nodeCount + 1) hlt
    have hlen := Volume.length_readDir_lt hentries
    have hwaiting : (w.enter v dir).1.waiting = entries.length + 1 + w.waiting := by
      rw [waiting_of_stack (show (w.enter v dir).1.stack = _ :: w.stack by rw [h]),
        List.length_mergeSort]
    rw [Nat.mul_succ] at hmul
    omega

theorem enter_measure_le (w : Walk) (v : Volume) (dir : String) :
    (w.enter v dir).1.measure v ≤ w.measure v := by
  have h := enter_measure w v dir
  simp only [measure, (enter_root w v dir).2.2]
  omega

/-! ## What a step can do -/

/-- A step that goes on starts the walk at its root, leaves a frame with nothing left, or takes
the next entry of the top frame: it passes over the entry, or enters it where it is a
directory. -/
theorem step_next_cases {v : Volume} {w w' : Walk} {errors : List Diagnostic}
    (h : w.step v = .next w' errors) :
    (w.started = false ∧ w' = (enter { w with started := true } v w.root).1) ∨
    (w.started = true ∧ ∃ dir outer, w.stack = ⟨dir, []⟩ :: outer ∧ w' = { w with stack := outer }) ∨
    (w.started = true ∧ ∃ dir name kind rest outer,
      w.stack = ⟨dir, (name, kind) :: rest⟩ :: outer ∧
      (w' = { w with stack := ⟨dir, rest⟩ :: outer } ∨
        role v (Path.child dir name) kind = .ok .directory ∧
          w' = (enter { w with stack := ⟨dir, rest⟩ :: outer } v (Path.child dir name)).1)) := by
  obtain ⟨root, extension, started, visited, stack, endless⟩ := w
  cases started
  · simp only [step, Bool.not_false, if_true, Step.next.injEq] at h
    exact .inl ⟨rfl, h.1.symm⟩
  · rcases stack with _ | ⟨⟨dir, _ | ⟨⟨name, kind⟩, rest⟩⟩, outer⟩
    · simp [step] at h
    · simp only [step, Bool.not_true, Bool.false_eq_true, if_false, Step.next.injEq] at h
      exact .inr (.inl ⟨rfl, dir, outer, rfl, h.1.symm⟩)
    · refine .inr (.inr ⟨rfl, dir, name, kind, rest, outer, rfl, ?_⟩)
      simp only [step, Bool.not_true, Bool.false_eq_true, if_false] at h
      rcases hrole : role v (Path.child dir name) kind with f | _ | _ | _ <;>
        simp only [hrole] at h
      · exact .inl (Step.next.inj h).1.symm
      · exact .inr ⟨rfl, (Step.next.inj h).1.symm⟩
      · split at h
        · cases h
        · exact .inl (Step.next.inj h).1.symm
      · exact .inl (Step.next.inj h).1.symm

/-- A step gives a file only when it takes an entry of the top frame that is a file with the
walk's extension, and then it only takes the entry. -/
theorem step_found_cases {v : Volume} {w w' : Walk} {path : String}
    (h : w.step v = .found path w') :
    w.started = true ∧ ∃ dir name kind rest outer,
      w.stack = ⟨dir, (name, kind) :: rest⟩ :: outer ∧
      role v (Path.child dir name) kind = .ok .file ∧ path = Path.child dir name ∧
      w' = { w with stack := ⟨dir, rest⟩ :: outer } := by
  obtain ⟨root, extension, started, visited, stack, endless⟩ := w
  cases started
  · simp [step] at h
  · rcases stack with _ | ⟨⟨dir, _ | ⟨⟨name, kind⟩, rest⟩⟩, outer⟩
    · simp [step] at h
    · simp [step] at h
    · refine ⟨rfl, dir, name, kind, rest, outer, rfl, ?_⟩
      simp only [step, Bool.not_true, Bool.false_eq_true, if_false] at h
      rcases hrole : role v (Path.child dir name) kind with f | _ | _ | _ <;>
        simp only [hrole, reduceCtorEq] at h
      split at h
      · obtain ⟨rfl, rfl⟩ := Step.found.inj h
        exact ⟨rfl, rfl, rfl⟩
      · cases h

/-- Taking an entry of the top frame lowers the measure. -/
theorem measure_take {v : Volume} {w : Walk} {dir : String} {e : String × Kind}
    {rest : List (String × Kind)} {outer : List Frame} (h : w.stack = ⟨dir, e :: rest⟩ :: outer) :
    ({ w with stack := ⟨dir, rest⟩ :: outer } : Walk).measure v < w.measure v := by
  have hwaiting : w.waiting = ({ w with stack := ⟨dir, rest⟩ :: outer } : Walk).waiting + 1 :=
    waiting_take h rfl
  simp only [measure, fresh]
  omega

/-- Every step that goes on lowers the measure. -/
theorem step_measure {v : Volume} {w w' : Walk} {errors : List Diagnostic}
    (h : w.step v = .next w' errors) : w'.measure v < w.measure v := by
  rcases step_next_cases h with ⟨hstart, rfl⟩ | ⟨-, dir, outer, hstack, rfl⟩ |
    ⟨-, dir, name, kind, rest, outer, hstack, rfl | ⟨-, rfl⟩⟩
  · -- starting spends the start's share, and entering the root takes no more
    have henter := enter_measure { w with started := true } v w.root
    have hstarted := (enter_root { w with started := true } v w.root).2.2
    simp only [measure, hstarted, hstart, Bool.false_eq_true, ↓reduceIte]
    simp only [waiting, fresh] at henter ⊢
    omega
  · have hwaiting := @waiting_of_stack w { w with stack := outer } ⟨dir, []⟩ hstack
    simp only [measure, fresh]
    omega
  · exact measure_take hstack
  · exact (enter_measure_le _ v _).trans_lt (measure_take hstack)

/-- A step that gives a file lowers the measure. -/
theorem step_found_measure {v : Volume} {w w' : Walk} {path : String}
    (h : w.step v = .found path w') : w'.measure v < w.measure v := by
  obtain ⟨-, dir, name, kind, rest, outer, hstack, -, -, rfl⟩ := step_found_cases h
  exact measure_take hstack

/-! ## A pull never runs out of steps -/

/-- The steps a pull may take exceed the measure. -/
theorem measure_lt_budget (w : Walk) (v : Volume) : w.measure v < w.budget v := by
  have hmul := Nat.mul_le_mul_left (v.nodeCount + 1) (fresh_le w v)
  have hbudget : w.budget v = w.waiting + (v.nodeCount + 1) * (v.nodeCount + 2) + 2 := rfl
  rw [hbudget, Nat.mul_succ, Nat.mul_succ]
  unfold measure
  split <;> omega

/-- With more steps than the measure, stepping gives the same whatever the number of steps. -/
theorem advance_fuel {v : Volume} : ∀ {fuel fuel' : Nat} {w : Walk} {errors : List Diagnostic},
    w.measure v < fuel → w.measure v < fuel' → advance v fuel w errors = advance v fuel' w errors
  | 0, _, _, _, h, _ => absurd h (Nat.not_lt_zero _)
  | _, 0, _, _, _, h' => absurd h' (Nat.not_lt_zero _)
  | fuel + 1, fuel' + 1, w, errors, h, h' => by
    rw [advance_succ, advance_succ]
    rcases hstep : w.step v with _ | _ | ⟨w', found⟩
    · rfl
    · rfl
    · have hlt := step_measure hstep
      exact advance_fuel (by omega) (by omega)

/-- A pull gives what stepping as long as it takes gives. -/
theorem pull_eq_advance {v : Volume} {w : Walk} {fuel : Nat} (h : w.measure v < fuel) :
    w.pull v = advance v fuel w [] :=
  advance_fuel (measure_lt_budget w v) h

/-- With more steps than the measure, stepping either reaches the end of the walk and gives no
file, or gives a file and leaves a walk of smaller measure. -/
theorem advance_cases {v : Volume} : ∀ {fuel : Nat} {w : Walk} {errors : List Diagnostic},
    w.measure v < fuel →
    ((advance v fuel w errors).next = none ∧ (advance v fuel w errors).walk.step v = .ended) ∨
    ((advance v fuel w errors).next.isSome ∧
      (advance v fuel w errors).walk.measure v < w.measure v)
  | 0, _, _, h => absurd h (Nat.not_lt_zero _)
  | fuel + 1, w, errors, h => by
    rw [advance_succ]
    rcases hstep : w.step v with ⟨path, w'⟩ | _ | ⟨w', found⟩
    · exact .inr ⟨rfl, step_found_measure hstep⟩
    · exact .inl ⟨rfl, hstep⟩
    · have hlt := step_measure hstep
      rcases @advance_cases v fuel w' (errors ++ found) (by omega) with
        hend | ⟨hsome, hdrop⟩
      · exact .inl hend
      · exact .inr ⟨hsome, hdrop.trans hlt⟩

/-- A pull either ends the walk, giving no file, or gives a file and lowers the measure. -/
theorem pull_cases (w : Walk) (v : Volume) :
    ((w.pull v).next = none ∧ (w.pull v).walk.step v = .ended) ∨
    ((w.pull v).next.isSome ∧ (w.pull v).walk.measure v < w.measure v) :=
  advance_cases (measure_lt_budget w v)

/-- A walk at its end gives nothing more and stays as it is. -/
theorem pull_of_ended {v : Volume} {w : Walk} (h : w.step v = .ended) :
    w.pull v = ⟨none, [], w⟩ := by
  have hbudget : w.budget v = (w.budget v - 1) + 1 := by
    have := measure_lt_budget w v
    omega
  rw [pull, hbudget, advance_succ, h]

/-! ## What every step keeps, a pull keeps -/

section Preserved

variable {v : Volume} (P : Walk → List String → Prop)

/-- A property of a walk and the files it has given, kept by every step that goes on and by
every step that gives a file once the file is added, is kept by stepping with more steps than
the measure. -/
theorem advance_preserves
    (hnext : ∀ w w' errors given, w.step v = .next w' errors → P w given → P w' given)
    (hfound : ∀ w w' path given, w.step v = .found path w' → P w given → P w' (given ++ [path])) :
    ∀ {fuel : Nat} {w : Walk} {errors : List Diagnostic} {given : List String},
      w.measure v < fuel → P w given →
        P (advance v fuel w errors).walk (given ++ (advance v fuel w errors).next.toList)
  | 0, _, _, _, h, _ => absurd h (Nat.not_lt_zero _)
  | fuel + 1, w, errors, given, h, hP => by
    rw [advance_succ]
    rcases hstep : w.step v with ⟨path, w'⟩ | _ | ⟨w', found⟩
    · exact hfound w w' path given hstep hP
    · simpa using hP
    · have hlt := step_measure hstep
      exact advance_preserves hnext hfound (show w'.measure v < fuel by omega)
        (hnext w w' found given hstep hP)

/-- The same property is kept by a pull. -/
theorem pull_preserves
    (hnext : ∀ w w' errors given, w.step v = .next w' errors → P w given → P w' given)
    (hfound : ∀ w w' path given, w.step v = .found path w' → P w given → P w' (given ++ [path]))
    {w : Walk} {given : List String} (hP : P w given) :
    P (w.pull v).walk (given ++ (w.pull v).next.toList) :=
  advance_preserves P hnext hfound (measure_lt_budget w v) hP

end Preserved

/-! ## Pulling to the end -/

/-- Pulls a walk once on each volume in turn, the volume changing between pulls as it may: the
files given, in order, and the walk after the last pull. -/
def pulls : List Volume → Walk → List String × Walk
  | [], w => ([], w)
  | v :: vs, w =>
    let p := w.pull v
    ((p.next.toList ++ (pulls vs p.walk).1), (pulls vs p.walk).2)

theorem pulls_cons (v : Volume) (vs : List Volume) (w : Walk) :
    pulls (v :: vs) w = ((w.pull v).next.toList ++ (pulls vs (w.pull v).walk).1,
      (pulls vs (w.pull v).walk).2) := rfl

/-- A property kept by a pull on every volume of a kind is kept by pulls on any volumes of
that kind, the files they give added in order. -/
theorem pulls_preserves (Q : Volume → Prop) (P : Walk → List String → Prop)
    (hpull : ∀ v w given, Q v → P w given → P (w.pull v).walk (given ++ (w.pull v).next.toList)) :
    ∀ (vs : List Volume) (w : Walk) (given : List String), (∀ v ∈ vs, Q v) → P w given →
      P (pulls vs w).2 (given ++ (pulls vs w).1)
  | [], w, given, _, hP => by simpa [pulls] using hP
  | v :: vs, w, given, hQ, hP => by
    rw [pulls_cons, ← List.append_assoc]
    exact pulls_preserves Q P hpull vs _ _ (fun v' hv' => hQ v' (List.mem_cons_of_mem v hv'))
      (hpull v w given (hQ v List.mem_cons_self) hP)

/-- The walk after `k` pulls on a volume that does not change. -/
def after (v : Volume) (k : Nat) (w : Walk) : Walk :=
  (pulls (List.replicate k v) w).2

theorem after_succ (v : Volume) (k : Nat) (w : Walk) :
    after v (k + 1) w = after v k (w.pull v).walk := rfl

/-- Pulling an ended walk leaves it ended. -/
theorem after_of_ended {v : Volume} {w : Walk} (h : w.step v = .ended) :
    ∀ k, after v k w = w
  | 0 => rfl
  | k + 1 => by rw [after_succ, pull_of_ended h, after_of_ended h k]

/-- On a volume that does not change, a walk ends within as many pulls as its measure, and every
pull from then on gives no file. -/
theorem ends_within_measure (v : Volume) (w : Walk) :
    ∃ n ≤ w.measure v, ∀ k, n ≤ k → ((after v k w).pull v).next = none := by
  induction hμ : w.measure v using Nat.strong_induction_on generalizing w with
  | _ μ ih =>
    rcases pull_cases w v with ⟨hnone, hend⟩ | ⟨-, hdrop⟩
    · -- the first pull ends the walk, and every later one finds it ended
      refine ⟨0, Nat.zero_le _, fun k _ => ?_⟩
      cases k with
      | zero => exact hnone
      | succ k => rw [after_succ, after_of_ended hend, pull_of_ended hend]
    · obtain ⟨n, hn, hend⟩ := ih _ (hμ ▸ hdrop) (w.pull v).walk rfl
      refine ⟨n + 1, by omega, fun k hk => ?_⟩
      obtain ⟨k, rfl⟩ : ∃ k', k = k' + 1 := ⟨k - 1, by omega⟩
      rw [after_succ]
      exact hend k (by omega)

/-! ## Draining a walk -/

/-- Draining a walk with more pulls than its measure gives the same whatever the number of
pulls: each pull that gives a file lowers the measure, and one that gives none ends the
draining. -/
theorem drain_fuel {v : Volume} :
    ∀ {fuel fuel' : Nat} {w : Walk} {files : List String} {errors : List Diagnostic},
      w.measure v < fuel → w.measure v < fuel' →
        drain v fuel w files errors = drain v fuel' w files errors
  | 0, _, _, _, _, h, _ => absurd h (Nat.not_lt_zero _)
  | _, 0, _, _, _, _, h' => absurd h' (Nat.not_lt_zero _)
  | fuel + 1, fuel' + 1, w, files, errors, h, h' => by
    simp only [drain]
    cases hend : (w.pull v).walk.endless with
    | some dir => rfl
    | none =>
      rcases pull_cases w v with ⟨hnone, -⟩ | ⟨hsome, hdrop⟩
      · simp only [hnone]
      · obtain ⟨path, hpath⟩ := Option.isSome_iff_exists.mp hsome
        simp only [hpath]
        exact drain_fuel (by omega) (by omega)

/-- A walk from its root has a measure below the pulls `all` allows: its root's share and one
share per location of the volume. -/
theorem measure_start_lt_pullLimit (host : Host) (root extension : String) (v : Volume) :
    (start host root extension).measure v < pullLimit v := by
  have hfresh := Nat.mul_le_mul_left (v.nodeCount + 1) (fresh_le (start host root extension) v)
  have hpos : 0 < v.nodeCount := Node.count_pos v.top
  have hlimit : pullLimit v = (v.nodeCount + 1) * v.nodeCount + 2 * v.nodeCount + 2 := by
    unfold pullLimit
    ring
  have hwaiting : (start host root extension).waiting = 0 := rfl
  have hstarted : (start host root extension).started = false := rfl
  simp only [measure, hwaiting, hstarted, Bool.false_eq_true, if_false]
  omega

/-- Every file of a walk from its root: `all` never runs out of pulls before the walk ends, and
gives what draining it with any more pulls gives. -/
theorem all_start_eq_drain (host : Host) (root extension : String) (v : Volume) {fuel : Nat}
    (hfuel : pullLimit v ≤ fuel) :
    (start host root extension).all v = drain v fuel (start host root extension) [] [] :=
  drain_fuel (measure_start_lt_pullLimit host root extension v)
    ((measure_start_lt_pullLimit host root extension v).trans_le hfuel)

end Walk

end Reword
