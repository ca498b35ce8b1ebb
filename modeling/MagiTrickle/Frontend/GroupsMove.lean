import MagiTrickle.Frontend.GroupsStore

/-!
# Where a move lands

A rule that is moved within its group is put in at an index of the shorter list.
Looked up by its id, the anchor has the right one there. An index from before
the move is clamped to the shorter list first and corrected after, which goes
wrong at the end of the list and for the moved rule itself (`Straight`,
`changeRuleIndex_iff`). Moves between groups and moves of groups are right
(`changeGroupIndex_lands`).
-/

namespace MagiTrickle.Groups

open Lib.Moves

/-! ## The index -/

/-- Where an index from before the move leads to the right place, for a rule at `fromRule` in a list
of `n` rules. -/
def IndexStraight (n fromRule toRule : Nat) : Side → Prop
  | .before => n = 1 ∨ toRule + 1 < n ∨ fromRule + 2 = n
  | .after => (toRule + 1 = n → n ≤ fromRule + 2) ∧ (toRule + 1 < n → toRule ≠ fromRule)

/-- Where the index leads back to the place of the moved rule, if its own id was given. -/
def IndexHome (n fromRule toRule : Nat) : Side → Prop
  | .before => min toRule (n - 2) = fromRule ∨ min toRule (n - 2) = fromRule + 1
  | .after => n = 1 ∨ min toRule (n - 2) + 1 = fromRule

/-- The index that `changeRuleIndex` falls back on. -/
def fallbackIndex (length : Nat) (isSameGroup : Bool) (fromIndex toRule : Nat) (insert : Side) :
    Nat :=
  if length = 0 then 0
  else
    let index := min toRule (length - 1)
    (if isSameGroup ∧ fromIndex < index then index - 1 else index) + insert.offset

theorem clamp_eq (value hi : Nat) : clamp value 0 hi = min hi value := Nat.max_eq_right (Nat.zero_le _)

theorem searchId_eq (targetRules : List Rule) (toRuleId : Option String) :
    searchId targetRules toRuleId =
      (given toRuleId).bind fun id => targetRules.findIdx? (·.id = id) := by
  cases toRuleId with
  | none => rfl
  | some id =>
    unfold searchId given
    by_cases hid : id = ""
    · subst hid
      rfl
    · have hlen : id.length > 0 := Nat.pos_of_ne_zero fun h => hid (String.length_eq_zero_iff.mp h)
      rw [Option.filter_some, if_pos (decide_eq_true hid)]
      exact if_pos hlen

theorem ruleInsertIndex_found {targetRules : List Rule} {isSameGroup : Bool}
    {fromIndex toRule k : Nat} {toRuleId : Option String} {id : String} {insert : Side}
    (hgiven : given toRuleId = some id) (hk : targetRules.findIdx? (·.id = id) = some k) :
    ruleInsertIndex targetRules isSameGroup fromIndex toRule toRuleId insert = k + insert.offset := by
  have hlt : k < targetRules.length := (List.findIdx?_eq_some_iff_getElem.mp hk).1
  unfold ruleInsertIndex
  rw [searchId_eq, hgiven, Option.bind_some, hk]
  dsimp only
  rw [clamp_eq]
  cases insert with
  | before =>
    rw [if_neg (by decide)]
    exact Nat.min_eq_right (Nat.le_of_lt hlt)
  | after =>
    rw [if_pos rfl]
    exact Nat.min_eq_right hlt

theorem ruleInsertIndex_fallback {targetRules : List Rule} {isSameGroup : Bool}
    {fromIndex toRule : Nat} {toRuleId : Option String} {insert : Side}
    (h : ∀ id, given toRuleId = some id → ∀ r ∈ targetRules, r.id ≠ id) :
    ruleInsertIndex targetRules isSameGroup fromIndex toRule toRuleId insert =
      fallbackIndex targetRules.length isSameGroup fromIndex toRule insert := by
  have hsearch : ((given toRuleId).bind fun id => targetRules.findIdx? (·.id = id)) = none := by
    cases hgiven : given toRuleId with
    | none => rfl
    | some id =>
      exact List.findIdx?_eq_none_iff.mpr fun r hr => decide_eq_false (h id hgiven r hr)
  unfold ruleInsertIndex fallbackIndex
  rw [searchId_eq, hsearch]
  dsimp only
  rw [clamp_eq, clamp_eq]
  rcases Nat.eq_zero_or_pos targetRules.length with hzero | hpos
  · rw [if_neg (by omega), if_pos hzero, hzero]
    exact Nat.zero_min _
  · rw [if_pos hpos, if_neg (Nat.ne_of_gt hpos), Nat.min_comm (targetRules.length - 1)]
    dsimp only
    have hindex : (if isSameGroup ∧ fromIndex < min toRule (targetRules.length - 1) then
        min toRule (targetRules.length - 1) - 1 else min toRule (targetRules.length - 1)) <
          targetRules.length := by
      split_ifs <;> omega
    cases insert with
    | before =>
      rw [if_neg (by decide)]
      exact Nat.min_eq_right (Nat.le_of_lt hindex)
    | after =>
      rw [if_pos rfl]
      exact Nat.min_eq_right hindex

theorem fallbackIndex_landing {n fromRule toRule : Nat} {insert : Side} (hfrom : fromRule < n)
    (hto : toRule < n) : fallbackIndex (n - 1) true fromRule toRule insert =
      landing insert fromRule toRule ↔ IndexStraight n fromRule toRule insert := by
  unfold fallbackIndex landing
  cases insert <;> simp only [IndexStraight, Side.offset, true_and, ne_eq] <;> split_ifs <;> omega

theorem fallbackIndex_home {n fromRule toRule : Nat} {insert : Side} (hfrom : fromRule < n)
    (hto : toRule < n) : fallbackIndex (n - 1) true fromRule toRule insert = fromRule ↔
      IndexHome n fromRule toRule insert := by
  unfold fallbackIndex
  cases insert <;> simp only [IndexHome, Side.offset, true_and] <;> split_ifs <;> omega

theorem fallbackIndex_other {n fromRule toRule : Nat} {insert : Side} (hto : toRule < n) :
    fallbackIndex n false fromRule toRule insert = toRule + insert.offset := by
  unfold fallbackIndex
  rw [if_neg (Nat.ne_of_gt (Nat.zero_lt_of_lt hto)), Nat.min_eq_left (Nat.le_sub_one_of_lt hto)]
  exact congrArg (· + _) (if_neg fun h => Bool.false_ne_true h.1)

theorem ruleInsertIndex_le (targetRules : List Rule) (isSameGroup : Bool)
    (fromIndex toRule : Nat) (toRuleId : Option String) (insert : Side) :
    ruleInsertIndex targetRules isSameGroup fromIndex toRule toRuleId insert ≤
      targetRules.length := by
  unfold ruleInsertIndex
  dsimp only
  rw [clamp_eq]
  exact Nat.min_le_left _ _

/-! ## The groups after a move -/

namespace Objects

variable (s : Objects) {fromGroup fromRule toGroup : Nat} {moved : Rule}

theorem rules_nodup_at (group : Nat) : (s.rulesAt group).Nodup := by
  unfold Store.rulesAt
  cases hgroup : s.data[group]? with
  | none => exact List.nodup_nil
  | some g =>
    exact (List.nodup_flatMap.mp s.rules_nodup).1 g (List.mem_of_getElem? hgroup)

theorem not_mem_other (hne : fromGroup ≠ toGroup) (hmoved : moved ∈ s.rulesAt fromGroup) :
    moved ∉ s.rulesAt toGroup := by
  intro hmem
  unfold Store.rulesAt at hmoved hmem
  cases hsource : s.data[fromGroup]? with
  | none =>
    rw [hsource] at hmoved
    exact absurd hmoved List.not_mem_nil
  | some source =>
    cases htarget : s.data[toGroup]? with
    | none =>
      rw [htarget] at hmem
      exact absurd hmem List.not_mem_nil
    | some target =>
      rw [hsource] at hmoved
      rw [htarget] at hmem
      obtain ⟨hi, rfl⟩ := List.getElem?_eq_some_iff.mp hsource
      obtain ⟨hj, rfl⟩ := List.getElem?_eq_some_iff.mp htarget
      have hpairs := List.pairwise_iff_getElem.mp (List.nodup_flatMap.mp s.rules_nodup).2
      rcases Nat.lt_or_gt_of_ne hne with hlt | hgt
      · exact hpairs _ _ hi hj hlt hmoved hmem
      · exact hpairs _ _ hj hi hgt hmem hmoved

def remaining (fromGroup fromRule toGroup : Nat) : List Rule :=
  if fromGroup = toGroup then (s.rulesAt toGroup).eraseIdx fromRule else s.rulesAt toGroup

theorem remaining_nodup : (s.remaining fromGroup fromRule toGroup).Nodup := by
  unfold remaining
  split_ifs
  · exact (s.rules_nodup_at toGroup).eraseIdx fromRule
  · exact s.rules_nodup_at toGroup

theorem not_mem_remaining (hmoved : (s.rulesAt fromGroup)[fromRule]? = some moved) :
    moved ∉ s.remaining fromGroup fromRule toGroup := by
  unfold remaining
  split_ifs with hsame
  · subst hsame
    exact not_mem_eraseIdx (s.rules_nodup_at fromGroup) hmoved
  · exact s.not_mem_other hsame (List.mem_of_getElem? hmoved)

theorem mem_remaining_iff (hmoved : (s.rulesAt fromGroup)[fromRule]? = some moved) (r : Rule) :
    r ∈ s.remaining fromGroup fromRule toGroup ↔ r ∈ s.rulesAt toGroup ∧ r ≠ moved := by
  refine ⟨fun hr => ⟨?_, ?_⟩, ?_⟩
  · unfold remaining at hr
    split_ifs at hr with hsame
    · exact List.mem_of_mem_eraseIdx hr
    · exact hr
  · rintro rfl
    exact s.not_mem_remaining hmoved hr
  · rintro ⟨hr, hne⟩
    unfold remaining
    split_ifs with hsame
    · subst hsame
      rw [← erase_eq_eraseIdx_of_getElem? (s.rules_nodup_at fromGroup) hmoved]
      exact (List.mem_erase_of_ne hne).mpr hr
    · exact hr

end Objects

/-! ## Rules -/

section Rules

variable {s : Objects} {fromGroup fromRule toGroup toRule : Nat} {moved : Rule}
variable {toRuleId : Option String} {insert : Side}

def insertIndex (s : Objects) (fromGroup fromRule toGroup toRule : Nat) (toRuleId : Option String)
    (insert : Side) : Nat :=
  ruleInsertIndex (s.remaining fromGroup fromRule toGroup) (fromGroup = toGroup) fromRule toRule
    toRuleId insert

/-- What a move of a rule does. -/
theorem changeRuleIndex_data {source target : Group} (hsource : s.data[fromGroup]? = some source)
    (htarget : s.data[toGroup]? = some target) (hmoved : source.rules[fromRule]? = some moved) :
    (changeRuleIndex s.toStore fromGroup fromRule toGroup toRule toRuleId insert).data =
      (s.data.set fromGroup { source with rules := source.rules.eraseIdx fromRule }).set toGroup
        { target with
          rules := (s.remaining fromGroup fromRule toGroup).insertIdx
            (insertIndex s fromGroup fromRule toGroup toRule toRuleId insert) moved } := by
  have hlt : fromRule < source.rules.length := (List.getElem?_eq_some_iff.mp hmoved).1
  have hclamp : clamp fromRule 0 (source.rules.length - 1) = fromRule := by
    rw [clamp_eq]
    exact Nat.min_eq_right (Nat.le_sub_one_of_lt hlt)
  have hremaining : s.remaining fromGroup fromRule toGroup =
      if fromGroup = toGroup then source.rules.eraseIdx fromRule else target.rules := by
    unfold Objects.remaining Store.rulesAt
    split_ifs with hsame
    · rw [← hsame, hsource]
      rfl
    · rw [htarget]
      rfl
  unfold changeRuleIndex insertIndex
  rw [hsource, htarget, hremaining]
  dsimp only
  rw [if_neg (Nat.ne_of_gt (Nat.zero_lt_of_lt hlt)), hclamp, hmoved]

theorem group_of_rule {s : Store} {group i : Nat} {r : Rule} (h : (s.rulesAt group)[i]? = some r) :
    ∃ g, s.data[group]? = some g ∧ g.rules[i]? = some r := by
  unfold Store.rulesAt at h
  cases hgroup : s.data[group]? with
  | none =>
    rw [hgroup] at h
    exact absurd h (by simp)
  | some g =>
    rw [hgroup] at h
    exact ⟨g, rfl, h⟩

theorem rulesAt_of_group {s : Store} {group : Nat} {g : Group} (h : s.data[group]? = some g) :
    s.rulesAt group = g.rules := by
  unfold Store.rulesAt
  rw [h]
  rfl

theorem insertIndex_le : insertIndex s fromGroup fromRule toGroup toRule toRuleId insert ≤
    (s.remaining fromGroup fromRule toGroup).length :=
  ruleInsertIndex_le _ _ _ _ _ _

theorem rulesAt_changeRuleIndex (hmoved : (s.rulesAt fromGroup)[fromRule]? = some moved)
    (hto : toRule < (s.rulesAt toGroup).length) (group : Nat) :
    (changeRuleIndex s.toStore fromGroup fromRule toGroup toRule toRuleId insert).rulesAt group =
      if group = toGroup then
        (s.remaining fromGroup fromRule toGroup).insertIdx
          (insertIndex s fromGroup fromRule toGroup toRule toRuleId insert) moved
      else if group = fromGroup then (s.rulesAt fromGroup).eraseIdx fromRule
      else s.rulesAt group := by
  obtain ⟨source, hsource, hmoved'⟩ := group_of_rule hmoved
  obtain ⟨target, htarget, -⟩ := group_of_rule (List.getElem?_eq_getElem hto)
  have hfrom := (List.getElem?_eq_some_iff.mp hsource).1
  have hlt := (List.getElem?_eq_some_iff.mp htarget).1
  rw [rulesAt_of_group hsource]
  unfold Store.rulesAt
  rw [changeRuleIndex_data hsource htarget hmoved', List.getElem?_set, List.getElem?_set]
  rw [List.length_set]
  by_cases hgroup : group = toGroup
  · subst hgroup
    rw [if_pos rfl, if_pos hlt, if_pos rfl]
    rfl
  · rw [if_neg (Ne.symm hgroup), if_neg hgroup]
    by_cases hgroup' : group = fromGroup
    · subst hgroup'
      rw [if_pos rfl, if_pos hfrom, if_pos rfl]
      rfl
    · rw [if_neg (Ne.symm hgroup'), if_neg hgroup']

theorem keeps_changeRuleIndex (hmoved : (s.rulesAt fromGroup)[fromRule]? = some moved)
    (hto : toRule < (s.rulesAt toGroup).length) :
    Keeps s.toStore (changeRuleIndex s.toStore fromGroup fromRule toGroup toRule toRuleId insert)
      toGroup moved where
  groups := by
    obtain ⟨source, hsource, hmoved'⟩ := group_of_rule hmoved
    obtain ⟨target, htarget, -⟩ := group_of_rule (List.getElem?_eq_getElem hto)
    rw [changeRuleIndex_data hsource htarget hmoved', List.map_set, List.map_set]
    have hsame : (s.data.map fun g => (g.object, g.id))[fromGroup]? =
        some (source.object, source.id) := by
      rw [List.getElem?_map, hsource]
      rfl
    rw [set_eq_of_getElem? hsame]
    refine set_eq_of_getElem? ?_
    rw [List.getElem?_map, htarget]
    rfl
  rules := by
    obtain ⟨source, hsource, hmoved'⟩ := group_of_rule hmoved
    obtain ⟨target, htarget, -⟩ := group_of_rule (List.getElem?_eq_getElem hto)
    rw [changeRuleIndex_data hsource htarget hmoved']
    have hle := @insertIndex_le s fromGroup fromRule toGroup toRule toRuleId insert
    by_cases hsame : fromGroup = toGroup
    · subst hsame
      obtain rfl : source = target := Option.some.inj (hsource.symm.trans htarget)
      have hremaining : s.remaining fromGroup fromRule fromGroup = source.rules.eraseIdx fromRule := by
        rw [Objects.remaining, if_pos rfl, rulesAt_of_group hsource]
      rw [hremaining] at hle ⊢
      rw [List.set_set]
      exact perm_flatMap_set hsource (perm_move hmoved' hle)
    · have hremaining : s.remaining fromGroup fromRule toGroup = target.rules := by
        rw [Objects.remaining, if_neg hsame, rulesAt_of_group htarget]
      rw [hremaining] at hle ⊢
      obtain ⟨hlt, rfl⟩ := List.getElem?_eq_some_iff.mp hmoved'
      exact perm_flatMap_transfer hsource htarget hsame
        (List.getElem_cons_eraseIdx_perm hlt).symm (List.perm_insertIdx _ _ hle)
  order group := by
    have hnot : moved ∉ s.remaining fromGroup fromRule toGroup := s.not_mem_remaining hmoved
    rw [rulesAt_changeRuleIndex hmoved hto]
    split_ifs with hgroup hfrom
    · rw [erase_insertIdx hnot insertIndex_le, hgroup]
      unfold Objects.remaining
      split_ifs with hsame
      · subst hsame
        exact (erase_eq_eraseIdx_of_getElem? (s.rules_nodup_at fromGroup) hmoved).symm
      · exact (List.erase_of_not_mem (s.not_mem_other hsame (List.mem_of_getElem? hmoved))).symm
    · rw [hfrom, erase_eq_eraseIdx_of_getElem? (s.rules_nodup_at fromGroup) hmoved]
      exact List.erase_of_not_mem (not_mem_eraseIdx (s.rules_nodup_at fromGroup) hmoved)
    · rfl
  there := by
    rw [rulesAt_changeRuleIndex hmoved hto, if_pos rfl]
    exact List.mem_of_getElem? ((getElem?_insertIdx_iff (s.not_mem_remaining hmoved)
      insertIndex_le).mpr rfl)

/-- Where a move of a rule lands at its anchor. -/
def Straight (s : Store) (fromGroup fromRule toGroup toRule : Nat) (toRuleId : Option String)
    (insert : Side) (moved : Rule) : Prop :=
  fromGroup ≠ toGroup ∨
    match given toRuleId with
    | some id =>
      (∃ r ∈ s.rulesAt toGroup, r ≠ moved ∧ r.id = id) ∨ moved.id ≠ id ∨
        IndexHome (s.rulesAt toGroup).length fromRule toRule insert
    | none => IndexStraight (s.rulesAt toGroup).length fromRule toRule insert

/-- With the id of another rule a move always lands. -/
theorem lands_of_found {id : String} (hmoved : (s.rulesAt fromGroup)[fromRule]? = some moved)
    (hto : toRule < (s.rulesAt toGroup).length) (hgiven : given toRuleId = some id)
    (hfound : ∃ r ∈ s.rulesAt toGroup, r ≠ moved ∧ r.id = id) :
    LandsAtAnchor s.toStore
      (changeRuleIndex s.toStore fromGroup fromRule toGroup toRule toRuleId insert) toGroup toRule
      toRuleId insert moved := by
  intro _
  obtain ⟨r, hr, hne, hid⟩ := hfound
  have hmem : r ∈ s.remaining fromGroup fromRule toGroup :=
    (s.mem_remaining_iff hmoved r).mpr ⟨hr, hne⟩
  have hsome : ((s.remaining fromGroup fromRule toGroup).findIdx? (·.id = id)).isSome := by
    rw [List.findIdx?_isSome]
    exact List.any_eq_true.mpr ⟨r, hmem, decide_eq_true hid⟩
  obtain ⟨k, hk⟩ := Option.isSome_iff_exists.mp hsome
  obtain ⟨hlt, hkid, -⟩ := List.findIdx?_eq_some_iff_getElem.mp hk
  have hanchor := (s.mem_remaining_iff hmoved _).mp (List.getElem_mem hlt)
  refine ⟨(s.remaining fromGroup fromRule toGroup)[k], ?_, ?_⟩
  · unfold IsAnchor
    rw [hgiven]
    exact ⟨hanchor.1, of_decide_eq_true hkid⟩
  · refine ⟨fun heq => absurd heq.symm hanchor.2, fun _ => ?_⟩
    rw [rulesAt_changeRuleIndex hmoved hto, if_pos rfl]
    exact (beside_insertIdx_iff s.remaining_nodup (s.not_mem_remaining hmoved)
      (List.getElem?_eq_getElem hlt) insertIndex_le).mpr (ruleInsertIndex_found hgiven hk)

theorem insertIndex_fallback (hmoved : (s.rulesAt fromGroup)[fromRule]? = some moved)
    (h : ∀ id, given toRuleId = some id → ¬∃ r ∈ s.rulesAt toGroup, r ≠ moved ∧ r.id = id) :
    insertIndex s fromGroup fromRule toGroup toRule toRuleId insert =
      fallbackIndex (s.remaining fromGroup fromRule toGroup).length (fromGroup = toGroup) fromRule
        toRule insert := by
  refine ruleInsertIndex_fallback fun id hgiven r hr hid => h id hgiven ?_
  obtain ⟨hr, hne⟩ := (s.mem_remaining_iff hmoved r).mp hr
  exact ⟨r, hr, hne, hid⟩

/-- A move into another group always lands. -/
theorem lands_other (hne : fromGroup ≠ toGroup)
    (hmoved : (s.rulesAt fromGroup)[fromRule]? = some moved)
    (hto : toRule < (s.rulesAt toGroup).length) :
    LandsAtAnchor s.toStore
      (changeRuleIndex s.toStore fromGroup fromRule toGroup toRule toRuleId insert) toGroup toRule
      toRuleId insert moved := by
  have hnot := s.not_mem_other hne (List.mem_of_getElem? hmoved)
  rintro ⟨anchor, hanchor⟩
  cases hgiven : given toRuleId with
  | none =>
    refine ⟨anchor, hanchor, ?_⟩
    have hremaining : s.remaining fromGroup fromRule toGroup = s.rulesAt toGroup := if_neg hne
    have hindex := @insertIndex_fallback s fromGroup fromRule toGroup toRule _ toRuleId insert hmoved
      (fun id hid => absurd (hgiven.symm.trans hid) (by simp))
    rw [hremaining, decide_eq_false hne, fallbackIndex_other hto] at hindex
    unfold IsAnchor at hanchor
    rw [hgiven] at hanchor
    have hle := @insertIndex_le s fromGroup fromRule toGroup toRule toRuleId insert
    rw [hremaining] at hle
    rw [rulesAt_changeRuleIndex hmoved hto, if_pos rfl, hremaining]
    exact (lands_insert_iff (s.rules_nodup_at toGroup) hnot hanchor hle).mpr hindex
  | some id =>
    refine lands_of_found hmoved hto hgiven ?_ ⟨anchor, hanchor⟩
    unfold IsAnchor at hanchor
    rw [hgiven] at hanchor
    refine ⟨anchor, hanchor.1, ?_, hanchor.2⟩
    rintro rfl
    exact hnot hanchor.1

/-- A move in one group that falls back on the index, to the rule that is now at `anchorRule`. -/
theorem lands_same_iff {anchorRule : Nat} {anchor : Rule}
    (hmoved : (s.rulesAt fromGroup)[fromRule]? = some moved)
    (hto : toRule < (s.rulesAt fromGroup).length)
    (hanchor : (s.rulesAt fromGroup)[anchorRule]? = some anchor)
    (h : ∀ id, given toRuleId = some id → ¬∃ r ∈ s.rulesAt fromGroup, r ≠ moved ∧ r.id = id) :
    Lands insert (s.rulesAt fromGroup)
      ((changeRuleIndex s.toStore fromGroup fromRule fromGroup toRule toRuleId insert).rulesAt
        fromGroup) moved anchor ↔
      fallbackIndex ((s.rulesAt fromGroup).length - 1) true fromRule toRule insert =
        landing insert fromRule anchorRule := by
  have hremaining : s.remaining fromGroup fromRule fromGroup =
      (s.rulesAt fromGroup).eraseIdx fromRule := if_pos rfl
  have hindex := @insertIndex_fallback s _ _ _ toRule _ toRuleId insert hmoved h
  have hle := @insertIndex_le s fromGroup fromRule fromGroup toRule toRuleId insert
  rw [hremaining, decide_eq_true rfl, length_eraseIdx_of_getElem? hmoved] at hindex
  rw [hremaining] at hle
  rw [rulesAt_changeRuleIndex hmoved hto, if_pos rfl, hremaining, ← hindex]
  exact lands_move_iff (s.rules_nodup_at fromGroup) hmoved hanchor hle

theorem landsAtAnchor_index (hgiven : given toRuleId = none)
    (hmoved : (s.rulesAt fromGroup)[fromRule]? = some moved)
    (hto : toRule < (s.rulesAt fromGroup).length) :
    LandsAtAnchor s.toStore
      (changeRuleIndex s.toStore fromGroup fromRule fromGroup toRule toRuleId insert) fromGroup toRule
      toRuleId insert moved ↔
      IndexStraight (s.rulesAt fromGroup).length fromRule toRule insert := by
  have hnone : ∀ id, given toRuleId = some id →
      ¬∃ r ∈ s.rulesAt fromGroup, r ≠ moved ∧ r.id = id :=
    fun id hid => absurd (hgiven.symm.trans hid) (by simp)
  have hanchor := List.getElem?_eq_getElem hto
  have hlands := (@lands_same_iff _ _ _ _ _ _ insert _ _ hmoved hto hanchor hnone).trans
    (fallbackIndex_landing (List.getElem?_eq_some_iff.mp hmoved).1 hto)
  rw [← hlands]
  unfold LandsAtAnchor IsAnchor
  rw [hgiven]
  dsimp only
  rw [hanchor]
  refine ⟨fun h => ?_, fun h _ => ⟨_, rfl, h⟩⟩
  obtain ⟨anchor, heq, h⟩ := h ⟨_, rfl⟩
  obtain rfl := Option.some.inj heq
  exact h

theorem landsAtAnchor_own (hgiven : given toRuleId = some moved.id)
    (hmoved : (s.rulesAt fromGroup)[fromRule]? = some moved)
    (hto : toRule < (s.rulesAt fromGroup).length)
    (halone : ¬∃ r ∈ s.rulesAt fromGroup, r ≠ moved ∧ r.id = moved.id) :
    LandsAtAnchor s.toStore
      (changeRuleIndex s.toStore fromGroup fromRule fromGroup toRule toRuleId insert) fromGroup toRule
      toRuleId insert moved ↔ IndexHome (s.rulesAt fromGroup).length fromRule toRule insert := by
  have hnone : ∀ id, given toRuleId = some id →
      ¬∃ r ∈ s.rulesAt fromGroup, r ≠ moved ∧ r.id = id := by
    intro id hid
    obtain rfl := Option.some.inj (hgiven.symm.trans hid)
    exact halone
  have hlands := @lands_same_iff _ _ _ _ _ _ insert _ _ hmoved hto hmoved hnone
  rw [landing, if_pos rfl,
    fallbackIndex_home (List.getElem?_eq_some_iff.mp hmoved).1 hto] at hlands
  have hanchor : ∀ anchor, IsAnchor s.toStore fromGroup toRule toRuleId anchor ↔ anchor = moved := by
    intro anchor
    unfold IsAnchor
    rw [hgiven]
    refine ⟨fun h => ?_, ?_⟩
    · by_contra hne
      exact halone ⟨anchor, h.1, hne, h.2⟩
    · rintro rfl
      exact ⟨List.mem_of_getElem? hmoved, rfl⟩
  rw [← hlands]
  unfold LandsAtAnchor
  simp only [hanchor, exists_eq, exists_eq_left, true_imp_iff]

theorem landsAtAnchor_iff (hmoved : (s.rulesAt fromGroup)[fromRule]? = some moved)
    (hto : toRule < (s.rulesAt toGroup).length) :
    LandsAtAnchor s.toStore
      (changeRuleIndex s.toStore fromGroup fromRule toGroup toRule toRuleId insert) toGroup toRule
      toRuleId insert moved ↔
      Straight s.toStore fromGroup fromRule toGroup toRule toRuleId insert moved := by
  unfold Straight
  by_cases hne : fromGroup ≠ toGroup
  · exact ⟨fun _ => .inl hne, fun _ => lands_other hne hmoved hto⟩
  obtain rfl := not_ne_iff.mp hne
  rw [or_iff_right hne]
  cases hgiven : given toRuleId with
  | none => exact landsAtAnchor_index hgiven hmoved hto
  | some id =>
    dsimp only
    by_cases hfound : ∃ r ∈ s.rulesAt fromGroup, r ≠ moved ∧ r.id = id
    · exact ⟨fun _ => .inl hfound, fun _ => lands_of_found hmoved hto hgiven hfound⟩
    rw [or_iff_right hfound]
    by_cases hid : moved.id = id
    · subst hid
      rw [or_iff_right (not_not.mpr rfl)]
      exact landsAtAnchor_own hgiven hmoved hto hfound
    -- no rule of the group has the id, so there is no anchor
    · refine ⟨fun _ => .inl hid, fun _ => ?_⟩
      rintro ⟨anchor, h⟩
      unfold IsAnchor at h
      rw [hgiven] at h
      refine absurd ⟨anchor, h.1, ?_, h.2⟩ hfound
      rintro rfl
      exact hid h.2

end Rules

/-! ## Groups -/

section Groups

variable {s : Objects} {fromIndex toIndex : Nat} {moved anchor : Group} {insert : Side}

/-- A group is put in where it should be. -/
theorem changeGroupIndex_data (hfrom : s.data[fromIndex]? = some moved)
    (hto : toIndex < s.data.length) :
    (changeGroupIndex s.toStore fromIndex toIndex insert).data =
      (s.data.eraseIdx fromIndex).insertIdx (landing insert fromIndex toIndex) moved := by
  have hlt := (List.getElem?_eq_some_iff.mp hfrom).1
  unfold changeGroupIndex
  by_cases hself : fromIndex = toIndex ∧ insert ≠ .after
  · rw [if_pos hself, landing, if_pos hself.1.symm]
    exact (insertIdx_eraseIdx_of_getElem? hfrom).symm
  · rw [if_neg hself, hfrom]
    dsimp only
    rw [length_eraseIdx_of_getElem? hfrom]
    refine congrArg (List.insertIdx _ · _) ?_
    unfold landing
    cases insert with
    | before =>
      have hne : fromIndex ≠ toIndex := fun h => hself ⟨h, by decide⟩
      simp only [reduceCtorEq, if_false, Side.offset]
      split_ifs <;> omega
    | after =>
      simp only [if_true, Side.offset]
      split_ifs <;> omega

theorem landing_le {length : Nat} (hfrom : fromIndex < length) (hto : toIndex < length) :
    landing insert fromIndex toIndex ≤ length - 1 := by
  unfold landing
  cases insert <;> simp only [Side.offset] <;> split_ifs <;> omega

/-- A move of a group always lands. -/
theorem changeGroupIndex_lands (hfrom : s.data[fromIndex]? = some moved)
    (hto : s.data[toIndex]? = some anchor) :
    GroupLands s.toStore (changeGroupIndex s.toStore fromIndex toIndex insert) moved anchor
      insert := by
  have hnodup : s.data.Nodup := s.groups_nodup.of_map
  have hlt := (List.getElem?_eq_some_iff.mp hto).1
  have hle : landing insert fromIndex toIndex ≤ (s.data.eraseIdx fromIndex).length := by
    rw [length_eraseIdx_of_getElem? hfrom]
    exact landing_le (List.getElem?_eq_some_iff.mp hfrom).1 hlt
  refine ⟨?_, ?_, ?_⟩ <;> rw [changeGroupIndex_data hfrom hlt]
  · exact perm_move hfrom hle
  · rw [erase_insertIdx (not_mem_eraseIdx hnodup hfrom) hle,
      erase_eq_eraseIdx_of_getElem? hnodup hfrom]
  · exact (lands_move_iff hnodup hfrom hto hle).mpr rfl

end Groups

/-! ## Every move -/

/-- Moves of rules keep and place them just where they are straight, moves of groups always. -/
theorem changeIndex_exact (s : Objects) :
    (∀ fromGroup fromRule toGroup toRule toRuleId insert moved,
      (s.rulesAt fromGroup)[fromRule]? = some moved → toRule < (s.rulesAt toGroup).length →
        let s' := changeRuleIndex s.toStore fromGroup fromRule toGroup toRule toRuleId insert
        Keeps s.toStore s' toGroup moved ∧
            LandsAtAnchor s.toStore s' toGroup toRule toRuleId insert moved ↔
          Straight s.toStore fromGroup fromRule toGroup toRule toRuleId insert moved) ∧
    ∀ fromIndex toIndex insert moved anchor,
      s.data[fromIndex]? = some moved → s.data[toIndex]? = some anchor →
        GroupLands s.toStore (changeGroupIndex s.toStore fromIndex toIndex insert) moved anchor
          insert := by
  refine ⟨fun fromGroup fromRule toGroup toRule toRuleId insert moved hmoved hto => ?_,
    fun fromIndex toIndex insert moved anchor hfrom hto => changeGroupIndex_lands hfrom hto⟩
  have hiff := @landsAtAnchor_iff _ _ _ _ _ _ toRuleId insert hmoved hto
  exact ⟨fun h => hiff.mp h.2, fun h => ⟨keeps_changeRuleIndex hmoved hto, hiff.mpr h⟩⟩

def twoGroups : Objects where
  data := [⟨0, "g", [⟨1, "a"⟩, ⟨2, "b"⟩, ⟨3, "c"⟩]⟩, ⟨4, "h", [⟨5, "d"⟩]⟩]
  forced := fun _ => []
  dataRevision := 0
  rules_nodup := by decide
  groups_nodup := by decide

theorem changeIndex_exact_twoGroups :
    (twoGroups.rulesAt 0)[2]? = some ⟨3, "c"⟩ ∧
      (let s' := changeRuleIndex twoGroups.toStore 0 2 1 0 none .before
       Keeps twoGroups.toStore s' 1 ⟨3, "c"⟩ ∧
         LandsAtAnchor twoGroups.toStore s' 1 0 none .before ⟨3, "c"⟩) ∧
      GroupLands twoGroups.toStore (changeGroupIndex twoGroups.toStore 0 1 .after)
        ⟨0, "g", [⟨1, "a"⟩, ⟨2, "b"⟩, ⟨3, "c"⟩]⟩ ⟨4, "h", [⟨5, "d"⟩]⟩ .after :=
  ⟨rfl, ((changeIndex_exact twoGroups).1 0 2 1 0 none .before ⟨3, "c"⟩ rfl (by decide)).mpr
    (.inl (by decide)), (changeIndex_exact twoGroups).2 0 1 .after _ _ rfl rfl⟩

/-- The first of three rules does not land before the last one. -/
theorem changeRuleIndex_last :
    (twoGroups.rulesAt 0)[0]? = some ⟨1, "a"⟩ ∧ 2 < (twoGroups.rulesAt 0).length ∧
      (changeRuleIndex twoGroups.toStore 0 0 0 2 none .before).rulesAt 0 = twoGroups.rulesAt 0 ∧
      ¬LandsAtAnchor twoGroups.toStore (changeRuleIndex twoGroups.toStore 0 0 0 2 none .before) 0 2
        none .before ⟨1, "a"⟩ := by
  refine ⟨rfl, by decide, rfl, fun h => ?_⟩
  obtain ⟨anchor, hanchor, h⟩ := h ⟨⟨3, "c"⟩, rfl⟩
  obtain rfl : (⟨3, "c"⟩ : Rule) = anchor := Option.some.inj hanchor
  obtain ⟨k, hk, hkc⟩ := h.2 (by decide)
  obtain rfl := eq_of_getElem? (p := 0) (by decide) hk rfl
  exact absurd hkc (by decide)

end MagiTrickle.Groups
