import Mathlib
import Reword.Rules.Document
/-!
# The order of rules in object and array documents

A rule document lists its rules either as an array of `{pattern, replacement}` objects or as an
object that maps each pattern to its replacement. An array gives its rules in the order written.
An object gives them in property order (`Json.putMember`): keys that are array indexes first, in
ascending numeric order, then the other keys in the order they were first written. Since rules
cascade, the order is part of their meaning.

Property order is measured by a rank (`Json.keyRank`): an index key ranks by its value, every
other key after all of them. Adding a member puts it before the first key of higher rank
(`insertMember_inPropertyOrder`), and at the end when no key present ranks higher
(`insertMember_of_rank_le`), so an object's keys are always in property order.

**The law** (`object_table_eq_array_table_iff`): the pairs written as an object give the same
table as the same pairs written as an array exactly when the array's table already lists its
patterns in property order (or when neither table can be built, an empty pattern being refused
by both); the table of an object always lists its patterns in property order.
`object_rules_move_index_key_first` is the smallest case where the two differ.
-/

namespace Reword

namespace Json

/-- The place of a key in property order: an index key by its value, every other key after all
index keys. -/
def keyRank (key : String) : Nat :=
  (indexKey? key).getD 4294967295

/-- Keys listed in property order: none stands after a key of higher rank. -/
def InPropertyOrder (keys : List String) : Prop :=
  keys.Pairwise fun a b => keyRank a ≤ keyRank b

theorem indexKey?_le {key : String} {n : Nat} (h : indexKey? key = some n) : n ≤ 4294967294 := by
  unfold indexKey? at h
  split at h
  · cases h
  · cases h
    omega
  · cases h
  · split at h
    · dsimp only at h
      split at h
      · cases h
        assumption
      · cases h
    · cases h

theorem keyRank_le (key : String) : keyRank key ≤ 4294967295 := by
  unfold keyRank
  cases h : indexKey? key with
  | none => simp
  | some n =>
    have := indexKey?_le h
    simp only [Option.getD_some]
    omega

/-- An index key goes before exactly the keys of higher rank. -/
theorem indexBefore_iff {key : String} {n : Nat} (h : indexKey? key = some n) (other : String) :
    indexBefore n other = true ↔ keyRank key < keyRank other := by
  have hn := indexKey?_le h
  simp only [indexBefore, keyRank, h, Option.getD_some]
  cases indexKey? other with
  | none => simp only [Option.getD_none, true_iff]; omega
  | some m => simp

/-- Inserting a member adds its key to the keys present. -/
theorem keys_insertMember_perm (key : String) (value : Json) :
    ∀ (members : List (String × Json)),
      ((insertMember key value members).map Prod.fst).Perm (key :: members.map Prod.fst)
  | [] => List.Perm.refl _
  | (k, v) :: rest => by
    have ih := keys_insertMember_perm key value rest
    unfold insertMember
    split
    · split
      · exact List.Perm.refl _
      · exact (ih.cons k).trans (List.Perm.swap key k _)
    · exact (ih.cons k).trans (List.Perm.swap key k _)

theorem mem_keys_insertMember {key other : String} {value : Json} {members : List (String × Json)} :
    other ∈ (insertMember key value members).map Prod.fst ↔
      other = key ∨ other ∈ members.map Prod.fst := by
  rw [(keys_insertMember_perm key value members).mem_iff, List.mem_cons]

/-- A key of no lower rank than every key present goes at the end. -/
theorem insertMember_of_rank_le {key : String} {value : Json} :
    ∀ {members : List (String × Json)}, (∀ m ∈ members, keyRank m.1 ≤ keyRank key) →
      insertMember key value members = members ++ [(key, value)]
  | [], _ => rfl
  | (k, v) :: rest, h => by
    have hrest := @insertMember_of_rank_le key value rest
      (fun m hm => h m (List.mem_cons_of_mem _ hm))
    cases hkey : indexKey? key with
    | none => simp [insertMember, hkey, hrest]
    | some n =>
      have hnot : indexBefore n k = false := by
        have hle : keyRank k ≤ keyRank key := h (k, v) List.mem_cons_self
        rw [Bool.eq_false_iff, ne_eq, indexBefore_iff hkey]
        omega
      simp [insertMember, hkey, hnot, hrest]

/-- Inserting a member keeps the keys in property order. -/
theorem insertMember_inPropertyOrder {key : String} {value : Json} :
    ∀ {members : List (String × Json)}, InPropertyOrder (members.map Prod.fst) →
      InPropertyOrder ((insertMember key value members).map Prod.fst)
  | [], _ => by simp [insertMember, InPropertyOrder]
  | (k, v) :: rest, h => by
    obtain ⟨hk, hrest⟩ := List.pairwise_cons.mp h
    -- the key stays behind `k` unless it ranks below it
    have hbehind : keyRank k ≤ keyRank key →
        InPropertyOrder (((k, v) :: insertMember key value rest).map Prod.fst) := by
      intro hle
      refine List.pairwise_cons.mpr ⟨fun b hb => ?_, insertMember_inPropertyOrder hrest⟩
      rcases mem_keys_insertMember.mp hb with rfl | hb
      · exact hle
      · exact hk b hb
    cases hkey : indexKey? key with
    | none =>
      have htop : keyRank key = 4294967295 := by simp [keyRank, hkey]
      simp only [insertMember, hkey]
      exact hbehind (htop ▸ keyRank_le k)
    | some n =>
      by_cases hbefore : indexBefore n k = true
      · have hlt := (indexBefore_iff hkey k).mp hbefore
        simp only [insertMember, hkey, hbefore, if_true]
        refine List.pairwise_cons.mpr ⟨fun b hb => ?_, h⟩
        rcases List.mem_cons.mp hb with rfl | hb
        · exact Nat.le_of_lt hlt
        · exact Nat.le_trans (Nat.le_of_lt hlt) (hk b hb)
      · have hle : keyRank k ≤ keyRank key := by
          rw [indexBefore_iff hkey k] at hbefore
          omega
        simp only [insertMember, hkey, hbefore, Bool.false_eq_true, if_false]
        exact hbehind hle

theorem any_key_iff {key : String} {members : List (String × Json)} :
    (members.any fun m => decide (m.1 = key)) = true ↔ key ∈ members.map Prod.fst := by
  simp only [List.any_eq_true, decide_eq_true_eq, List.mem_map]

/-- Setting a member changes the keys only by inserting a new one. -/
theorem keys_putMember (key : String) (value : Json) (members : List (String × Json)) :
    (putMember key value members).map Prod.fst =
      if key ∈ members.map Prod.fst then members.map Prod.fst
      else (insertMember key value members).map Prod.fst := by
  unfold putMember
  by_cases hmem : key ∈ members.map Prod.fst
  · rw [if_pos (any_key_iff.mpr hmem), if_pos hmem, List.map_map]
    congr 1
    funext m
    by_cases hm : m.1 = key <;> simp [hm]
  · rw [if_neg (fun h => hmem (any_key_iff.mp h)), if_neg hmem]

theorem putMember_inPropertyOrder (key : String) (value : Json) {members : List (String × Json)}
    (h : InPropertyOrder (members.map Prod.fst)) :
    InPropertyOrder ((putMember key value members).map Prod.fst) := by
  rw [keys_putMember]
  split
  · exact h
  · exact insertMember_inPropertyOrder h

end Json

namespace Table

/-- Entries without an empty pattern build the table whose rules are the entries set in turn. -/
theorem putAll_ok (t : Table) : ∀ (entries : List (String × String)), (∀ e ∈ entries, e.1 ≠ "") →
    ∃ T, t.putAll entries = .ok T ∧
      T.rules = entries.foldl (fun rs e => Rule.upsert e.1 e.2 rs) t.rules
  | [], _ => ⟨t, rfl, rfl⟩
  | (p, r) :: rest, h => by
    have hp : p ≠ "" := h (p, r) List.mem_cons_self
    obtain ⟨T, hT, hrules⟩ :=
      putAll_ok (t.put p r hp) rest (fun e he => h e (List.mem_cons_of_mem _ he))
    exact ⟨T, by rw [putAll, dif_neg hp, hT], hrules⟩

/-- An entry with an empty pattern stops the building. -/
theorem putAll_error (t : Table) : ∀ (entries : List (String × String)), (∃ e ∈ entries, e.1 = "") →
    t.putAll entries = .error .emptyPattern
  | [], ⟨_, he, _⟩ => absurd he List.not_mem_nil
  | (p, r) :: rest, ⟨e, he, hempty⟩ => by
    by_cases hp : p = ""
    · rw [putAll, dif_pos hp]
    · rw [putAll, dif_neg hp]
      rcases List.mem_cons.mp he with rfl | he
      · exact absurd hempty hp
      · exact putAll_error _ rest ⟨e, he, hempty⟩

end Table

namespace Rule

/-- A rule as the member of an object document. -/
def member (r : Rule) : String × Json :=
  (r.pattern, .string r.replacement)

theorem member_injective : Function.Injective member := by
  intro a b h
  simp only [member, Prod.mk.injEq, Json.string.injEq] at h
  cases a
  cases b
  simp_all

/-- The pairs added in order to an object, as reading the text `{"k1":"v1",…}` adds them: a
repeated key keeps its first place and takes its last value. -/
def objectMembers (pairs : List (String × String)) : List (String × Json) :=
  pairs.foldl (fun ms p => Json.putMember p.1 (.string p.2) ms) []

/-- The object document `{"k1":"v1",…}` of a list of pairs. -/
def objectDocument (pairs : List (String × String)) : Json :=
  .object (objectMembers pairs)

/-- The array document `[{"pattern":"k1","replacement":"v1"},…]` of a list of pairs. -/
def arrayDocument (pairs : List (String × String)) : Json :=
  .array (pairs.map fun p => .object [("pattern", .string p.1), ("replacement", .string p.2)])

/-! ## Reading the two documents -/

theorem ofItems_arrayItems (source : String) :
    ∀ (index : Nat) (pairs : List (String × String)),
      ofItems source index (pairs.map fun p =>
          .object [("pattern", .string p.1), ("replacement", .string p.2)]) =
        .ok (pairs.map fun p => ⟨p.1, p.2⟩)
  | _, [] => rfl
  | index, p :: rest => by
    have hitem : ofItem? (.object [("pattern", .string p.1), ("replacement", .string p.2)]) =
        some ⟨p.1, p.2⟩ := by
      simp [ofItem?, Json.field?]
    simp only [List.map_cons, ofItems, hitem, ofItems_arrayItems source (index + 1) rest]
    rfl

/-- An array document is read as its pairs, in order. -/
theorem ofDocument_arrayDocument (pairs : List (String × String)) (source : String) :
    ofDocument (arrayDocument pairs) source = .ok (pairs.map fun p => ⟨p.1, p.2⟩) :=
  ofItems_arrayItems source 0 pairs

/-- Members whose values are all strings are read as the rules they are members of. -/
theorem ofMembers_of_strings (source : String) :
    ∀ (members : List (String × Json)), (∀ m ∈ members, ∃ s, m.2 = .string s) →
      ∃ rs, ofMembers source members = .ok rs ∧ rs.map member = members
  | [], _ => ⟨[], rfl, rfl⟩
  | (k, j) :: rest, h => by
    obtain ⟨s, hs⟩ := h (k, j) List.mem_cons_self
    obtain ⟨rs, hrs, hmap⟩ := ofMembers_of_strings source rest
      (fun m hm => h m (List.mem_cons_of_mem _ hm))
    subst hs
    refine ⟨⟨k, s⟩ :: rs, ?_, by simp [member, hmap]⟩
    simp only [ofMembers, hrs]
    rfl

/-- Setting a string member keeps every value a string. -/
theorem putMember_strings {key s : String} {members : List (String × Json)}
    (h : ∀ m ∈ members, ∃ t, m.2 = .string t) :
    ∀ m ∈ Json.putMember key (.string s) members, ∃ t, m.2 = .string t := by
  -- an inserted member is the new one or one already present
  have hinsert : ∀ {ms : List (String × Json)}, (∀ m ∈ ms, ∃ t, m.2 = .string t) →
      ∀ m ∈ Json.insertMember key (.string s) ms, ∃ t, m.2 = .string t := by
    intro ms hms
    induction ms with
    | nil => simp [Json.insertMember]
    | cons m rest ih =>
      have hrest := ih (fun x hx => hms x (List.mem_cons_of_mem _ hx))
      unfold Json.insertMember
      split
      · split
        · intro x hx
          rcases List.mem_cons.mp hx with rfl | hx
          · exact ⟨s, rfl⟩
          · exact hms x hx
        · intro x hx
          rcases List.mem_cons.mp hx with rfl | hx
          · exact hms _ List.mem_cons_self
          · exact hrest x hx
      · intro x hx
        rcases List.mem_cons.mp hx with rfl | hx
        · exact hms _ List.mem_cons_self
        · exact hrest x hx
  unfold Json.putMember
  split
  · intro m hm
    obtain ⟨m', hm', rfl⟩ := List.mem_map.mp hm
    by_cases hk : m'.1 = key
    · exact ⟨s, by simp [hk]⟩
    · simpa [hk] using h m' hm'
  · exact hinsert h

theorem objectMembers_strings (pairs : List (String × String)) :
    ∀ m ∈ objectMembers pairs, ∃ t, m.2 = .string t := by
  suffices ∀ ms, (∀ m ∈ ms, ∃ t, m.2 = .string t) →
      ∀ m ∈ pairs.foldl (fun ms p => Json.putMember p.1 (.string p.2) ms) ms,
        ∃ t, m.2 = .string t from this [] (fun _ h => absurd h List.not_mem_nil)
  induction pairs with
  | nil => exact fun _ h => h
  | cons p rest ih => exact fun ms h => ih _ (putMember_strings h)

/-- Setting a member keeps the keys distinct, and adds its key to them. -/
theorem keys_putMember_nodup (key : String) (value : Json) {members : List (String × Json)}
    (h : (members.map Prod.fst).Nodup) :
    ((Json.putMember key value members).map Prod.fst).Nodup ∧
      ∀ k, k ∈ (Json.putMember key value members).map Prod.fst ↔
        k = key ∨ k ∈ members.map Prod.fst := by
  rw [Json.keys_putMember]
  split
  · next hmem => exact ⟨h, fun k => ⟨Or.inr, fun hk => hk.elim (· ▸ hmem) id⟩⟩
  · next hmem =>
    have hperm := Json.keys_insertMember_perm key value members
    exact ⟨hperm.nodup_iff.mpr (List.nodup_cons.mpr ⟨hmem, h⟩), fun k => Json.mem_keys_insertMember⟩

/-- The keys of an object are the keys written, each once, in property order. -/
theorem objectMembers_keys (pairs : List (String × String)) :
    ((objectMembers pairs).map Prod.fst).Nodup ∧
      Json.InPropertyOrder ((objectMembers pairs).map Prod.fst) ∧
      ∀ k, k ∈ (objectMembers pairs).map Prod.fst ↔ k ∈ pairs.map Prod.fst := by
  -- the members grow one pair at a time from any start with distinct keys in property order
  suffices ∀ ms : List (String × Json), (ms.map Prod.fst).Nodup →
      Json.InPropertyOrder (ms.map Prod.fst) →
      ((pairs.foldl (fun ms p => Json.putMember p.1 (.string p.2) ms) ms).map Prod.fst).Nodup ∧
        Json.InPropertyOrder
          ((pairs.foldl (fun ms p => Json.putMember p.1 (.string p.2) ms) ms).map Prod.fst) ∧
        ∀ k, k ∈ (pairs.foldl (fun ms p => Json.putMember p.1 (.string p.2) ms) ms).map Prod.fst ↔
          k ∈ ms.map Prod.fst ∨ k ∈ pairs.map Prod.fst by
    obtain ⟨hnodup, hsorted, hmem⟩ := this [] List.nodup_nil List.Pairwise.nil
    exact ⟨hnodup, hsorted, fun k => by simpa [objectMembers] using hmem k⟩
  induction pairs with
  | nil => intro ms hnodup hsorted; simpa using ⟨hnodup, hsorted⟩
  | cons p rest ih =>
    intro ms hnodup hsorted
    have hstep := keys_putMember_nodup p.1 (.string p.2) hnodup
    obtain ⟨hnodup', hsorted', hmem'⟩ :=
      ih _ hstep.1 (Json.putMember_inPropertyOrder p.1 (.string p.2) hsorted)
    refine ⟨hnodup', hsorted', fun k => ?_⟩
    rw [List.foldl_cons, hmem', hstep.2]
    simp only [List.map_cons, List.mem_cons]
    tauto

/-! ## Building the two tables -/

/-- A pattern not yet present gets its rule at the end. -/
theorem upsert_of_not_mem {pattern replacement : String} :
    ∀ {rs : List Rule}, pattern ∉ rs.map Rule.pattern →
      upsert pattern replacement rs = rs ++ [⟨pattern, replacement⟩]
  | [], _ => rfl
  | r :: rs, h => by
    have hr : r.pattern ≠ pattern := fun e => h (List.mem_map.mpr ⟨r, List.mem_cons_self, e⟩)
    rw [upsert, if_neg hr, upsert_of_not_mem (fun hm => h (List.mem_cons_of_mem _ hm))]
    rfl

/-- Rules set in turn keep the patterns already present as the start of theirs. -/
theorem patterns_prefix_foldl_upsert (pairs : List (String × String)) (rs : List Rule) :
    rs.map Rule.pattern <+: (pairs.foldl (fun rs p => upsert p.1 p.2 rs) rs).map Rule.pattern := by
  induction pairs generalizing rs with
  | nil => exact List.prefix_refl _
  | cons p rest ih =>
    refine List.IsPrefix.trans ?_ (ih (upsert p.1 p.2 rs))
    rw [map_pattern_upsert]
    split
    · exact List.prefix_refl _
    · exact List.prefix_append _ _

/-- Rules with distinct patterns, set in turn after others, are added at the end. -/
theorem foldl_upsert_of_nodup : ∀ (rs acc : List Rule), ((acc ++ rs).map Rule.pattern).Nodup →
    (rs.map fun r => (r.pattern, r.replacement)).foldl (fun rs e => upsert e.1 e.2 rs) acc = acc ++ rs
  | [], acc, _ => by simp
  | r :: rs, acc, h => by
    have hr : r.pattern ∉ acc.map Rule.pattern := by
      intro hmem
      rw [List.map_append, List.nodup_append] at h
      exact h.2.2 _ hmem _ (List.mem_map.mpr ⟨r, List.mem_cons_self, rfl⟩) rfl
    rw [List.map_cons, List.foldl_cons, upsert_of_not_mem hr,
      foldl_upsert_of_nodup rs (acc ++ [r]) (by simpa using h)]
    simp

/-- Setting a present pattern as a member or as a rule changes the same place. -/
theorem putMember_member_of_mem {k v : String} :
    ∀ {rs : List Rule}, (rs.map Rule.pattern).Nodup → k ∈ rs.map Rule.pattern →
      Json.putMember k (.string v) (rs.map member) = (upsert k v rs).map member := by
  -- the member of pattern `k` is the only one whose key is `k`
  have hset : ∀ {rs : List Rule}, (rs.map Rule.pattern).Nodup → k ∈ rs.map Rule.pattern →
      (rs.map member).map (fun m => if m.1 = k then (k, .string v) else m) =
        (upsert k v rs).map member := by
    intro rs
    induction rs with
    | nil => intro _ h; exact absurd h List.not_mem_nil
    | cons r rs ih =>
      intro hnodup hk
      obtain ⟨hr, hnodup'⟩ := List.nodup_cons.mp hnodup
      by_cases hpat : r.pattern = k
      · have hrest : ∀ m ∈ rs.map member, m.1 ≠ k := by
          intro m hm heq
          obtain ⟨x, hx, rfl⟩ := List.mem_map.mp hm
          exact hr (hpat ▸ heq ▸ List.mem_map.mpr ⟨x, hx, rfl⟩)
        have hid : (rs.map member).map (fun m => if m.1 = k then (k, .string v) else m) =
            rs.map member := by
          conv_rhs => rw [← List.map_id (rs.map member)]
          exact List.map_congr_left fun m hm => if_neg (hrest m hm)
        rw [List.map_cons, List.map_cons, upsert, if_pos hpat, List.map_cons, hid]
        simp [member, hpat]
      · have hk' : k ∈ rs.map Rule.pattern := by
          rcases List.mem_cons.mp hk with h | h
          · exact absurd h.symm hpat
          · exact h
        simp only [List.map_cons, upsert, if_neg hpat, member] at ih ⊢
        rw [ih hnodup' hk']
  intro rs hnodup hk
  have hany : ((rs.map member).any fun m => decide (m.1 = k)) = true := by
    rw [Json.any_key_iff, List.map_map]
    exact hk
  rw [Json.putMember, if_pos hany, hset hnodup hk]

/-- While the patterns set so far end in property order, an object and a table set the same
pairs in turn hold the same rules in the same order. -/
theorem foldl_putMember_of_inPropertyOrder (pairs : List (String × String)) :
    ∀ {rs : List Rule}, (rs.map Rule.pattern).Nodup →
      Json.InPropertyOrder ((pairs.foldl (fun rs p => upsert p.1 p.2 rs) rs).map Rule.pattern) →
      pairs.foldl (fun ms p => Json.putMember p.1 (.string p.2) ms) (rs.map member) =
        (pairs.foldl (fun rs p => upsert p.1 p.2 rs) rs).map member := by
  induction pairs with
  | nil => intro _ _ _; rfl
  | cons p rest ih =>
    intro rs hnodup hsorted
    have hnodup' : ((upsert p.1 p.2 rs).map Rule.pattern).Nodup := by
      rw [map_pattern_upsert]
      split
      · exact hnodup
      · next hmem => exact List.nodup_append.mpr ⟨hnodup, by simp, by simp_all⟩
    have hstep : Json.putMember p.1 (.string p.2) (rs.map member) = (upsert p.1 p.2 rs).map member := by
      by_cases hk : p.1 ∈ rs.map Rule.pattern
      · exact putMember_member_of_mem hnodup hk
      · -- a new pattern ranks no lower than those before it, as the patterns end in order
        have hprefix := patterns_prefix_foldl_upsert rest (upsert p.1 p.2 rs)
        have hsorted' : Json.InPropertyOrder ((upsert p.1 p.2 rs).map Rule.pattern) :=
          List.Pairwise.sublist hprefix.sublist hsorted
        rw [map_pattern_upsert, if_neg hk] at hsorted'
        have hrank : ∀ m ∈ rs.map member, Json.keyRank m.1 ≤ Json.keyRank p.1 := by
          intro m hm
          obtain ⟨r, hr, rfl⟩ := List.mem_map.mp hm
          exact (List.pairwise_append.mp hsorted').2.2 r.pattern (List.mem_map.mpr ⟨r, hr, rfl⟩)
            p.1 (List.mem_singleton_self p.1)
        have hany : ((rs.map member).any fun m => decide (m.1 = p.1)) = false := by
          rw [Bool.eq_false_iff, ne_eq, Json.any_key_iff, List.map_map]
          exact hk
        rw [Json.putMember, hany, if_neg Bool.false_ne_true, Json.insertMember_of_rank_le hrank,
          upsert_of_not_mem hk, List.map_append]
        rfl
    rw [List.foldl_cons, List.foldl_cons, hstep]
    exact ih hnodup' hsorted

/-- The pairs written as an object give the table of the same pairs written as an array exactly
when that table lists its patterns in property order, and neither builds when a pattern is
empty; the table of an object always lists its patterns in property order. -/
theorem object_table_eq_array_table_iff (pairs : List (String × String)) (source : String) :
    ∃ objectRules arrayRules,
      ofDocument (objectDocument pairs) source = .ok objectRules ∧
      ofDocument (arrayDocument pairs) source = .ok arrayRules ∧
      (∀ T, Table.ofRules objectRules = .ok T → Json.InPropertyOrder (T.rules.map Rule.pattern)) ∧
      ((Table.ofRules objectRules).map Table.rules = (Table.ofRules arrayRules).map Table.rules ↔
        ∀ T, Table.ofRules arrayRules = .ok T → Json.InPropertyOrder (T.rules.map Rule.pattern)) := by
  obtain ⟨objectRules, hobject, hmembers⟩ :=
    ofMembers_of_strings source (objectMembers pairs) (objectMembers_strings pairs)
  obtain ⟨hnodup, hsorted, hkeys⟩ := objectMembers_keys pairs
  have hpatterns : objectRules.map Rule.pattern = (objectMembers pairs).map Prod.fst := by
    rw [← hmembers, List.map_map]
    rfl
  have hentries : (pairs.map fun p => (⟨p.1, p.2⟩ : Rule)).map (fun r => (r.pattern, r.replacement)) =
      pairs := by
    simp [Function.comp_def]
  refine ⟨objectRules, _, hobject, ofDocument_arrayDocument pairs source, ?_⟩
  by_cases hempty : "" ∈ pairs.map Prod.fst
  · -- both documents hold the empty pattern, and both tables refuse it
    have hobjectError : Table.ofRules objectRules = .error .emptyPattern := by
      apply Table.putAll_error
      rw [← hkeys, ← hpatterns] at hempty
      obtain ⟨r, hr, hr'⟩ := List.mem_map.mp hempty
      exact ⟨(r.pattern, r.replacement), List.mem_map.mpr ⟨r, hr, rfl⟩, hr'⟩
    have harrayError : Table.ofRules (pairs.map fun p => ⟨p.1, p.2⟩) = .error .emptyPattern := by
      apply Table.putAll_error
      rw [hentries]
      obtain ⟨p, hp, hp'⟩ := List.mem_map.mp hempty
      exact ⟨p, hp, hp'⟩
    rw [hobjectError, harrayError]
    refine ⟨fun T h => ?_, fun _ T h => ?_, fun _ => rfl⟩
    · cases h
    · cases h
  · -- every pattern is nonempty, so both tables are built
    have hobjectNonempty : ∀ e ∈ objectRules.map fun r => (r.pattern, r.replacement), e.1 ≠ "" := by
      intro e he heq
      obtain ⟨r, hr, rfl⟩ := List.mem_map.mp he
      apply hempty
      rw [← hkeys, ← hpatterns]
      exact List.mem_map.mpr ⟨r, hr, heq⟩
    obtain ⟨objectTable, hobjectTable, hobjectRules⟩ :=
      Table.putAll_ok Table.empty _ hobjectNonempty
    have hobjectRules' : objectTable.rules = objectRules := by
      rw [hobjectRules]
      exact foldl_upsert_of_nodup objectRules [] (by simpa [hpatterns] using hnodup)
    obtain ⟨arrayTable, harrayTable, harrayRules⟩ := Table.putAll_ok Table.empty pairs
      (fun e he heq => hempty (List.mem_map.mpr ⟨e, he, heq⟩))
    have harrayTable' : Table.ofRules (pairs.map fun p => ⟨p.1, p.2⟩) = .ok arrayTable := by
      rw [← harrayTable, Table.ofRules, Table.ofEntries, hentries]
    have hobjectTable' : Table.ofRules objectRules = .ok objectTable := hobjectTable
    rw [hobjectTable', harrayTable']
    refine ⟨fun T h => ?_, ?_⟩
    · cases h
      rw [hobjectRules', hpatterns]
      exact hsorted
    · simp only [Except.map, Except.ok.injEq, forall_eq']
      constructor
      · intro heq
        rw [← heq, hobjectRules', hpatterns]
        exact hsorted
      · intro harraySorted
        -- the object's members are then the array table's rules, member by member
        have hsame := @foldl_putMember_of_inPropertyOrder pairs [] List.nodup_nil
          (by simpa [harrayRules, Table.empty] using harraySorted)
        rw [List.map_nil] at hsame
        have hobjectMembers : objectRules.map member = arrayTable.rules.map member := by
          rw [hmembers, harrayRules]
          exact hsame
        rw [hobjectRules', List.map_injective_iff.mpr member_injective hobjectMembers]

/-- Two pairs, a name and then an index, written as an object and as an array: the object's
table puts the index first, the array's keeps the order written. -/
theorem object_rules_move_index_key_first :
    ((ofDocument (objectDocument [("b", "x"), ("1", "y")]) "rules.json").toOption.bind
        fun rs => (Table.ofRules rs).toOption).map (fun T => T.rules.map Rule.pattern) =
      some ["1", "b"] ∧
    ((ofDocument (arrayDocument [("b", "x"), ("1", "y")]) "rules.json").toOption.bind
        fun rs => (Table.ofRules rs).toOption).map (fun T => T.rules.map Rule.pattern) =
      some ["b", "1"] := by
  constructor <;> decide +kernel

end Rule

end Reword
