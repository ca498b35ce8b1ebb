import MagiTrickle.Api.Groups

/-!
# Refused replacements

`PUT /groups` and `PUT /groups/{groupID}` take the rulesets down before they
look at the body, and `PUT /groups` clears the list before the ids are checked.
None of the early returns puts anything back. A refusal is seen by nobody
exactly if there was nothing to take down (`refused_put_unchanged_iff`).
-/

namespace MagiTrickle.Api

open MagiTrickle.Config

variable {κ : Type}

/-- What is to be seen of an entry: the group without the size of its block, the flag and the
objects in the kernel. -/
def Live.seen (l : Live κ) : Group × Bool × Option κ :=
  ({ l.group with rules := ⟨l.group.rules.items, none⟩ }, l.enabled, l.objects)

/-- The groups that are added before the first one with a conflict, `groups` being there already. -/
def beforeConflict (groups : List Group) : List Group → List Group
  | [] => []
  | g :: gs => if groupIdsConflict groups g then [] else g :: beforeConflict (groups ++ [g]) gs

namespace App

/-- The same groups with the same contents, flags and kernel objects, in the same order. -/
def Unchanged (a b : App κ) : Prop := b.groups.items.map Live.seen = a.groups.items.map Live.seen

/-- A new entry for a group, brought up if the daemon is running. -/
def bringUp (k : Kernel κ) (a : App κ) (g : Group) : Live κ :=
  if a.running then ((Live.new g).start k).1 else Live.new g

/-- When a refusal of `PUT /groups` is harmless. The body is given up before it is looked into; or
one of its entries is malformed and no ruleset is enabled; or there is a conflict of ids, and the
entries before it describe the very groups that are there, each in the state into which it is
brought up. -/
def PutGroupsHarmless (k : Kernel κ) (draw : Draw) (a : App κ) (body : Option Json) : Prop :=
  match body.bind fun json => json.getArray "groups" with
  | none => True
  | some reqs =>
    match a.buildGroups draw 0 reqs with
    | (_, some _) => ∀ l ∈ a.groups.items, l.enabled = false
    | (built, none) => (beforeConflict [] built).map (fun g => (a.bringUp k g).seen) =
        a.groups.items.map Live.seen

/-- When a refusal of `PUT /groups/{groupID}` is harmless: its body is given up before it is looked
into, or the ruleset is not enabled. -/
def PutGroupHarmless (a : App κ) (groupID : Bytes) (body : Option Json) : Prop :=
  ∀ i l, a.resolveGroup groupID = .ok (i, l) → body.isSome → l.enabled = false

/-! ## The steps of the handlers -/

variable {a b : App κ} {k : Kernel κ}

theorem unchanged_disableAll_iff :
    a.Unchanged (a.disableAll k) ↔ ∀ l ∈ a.groups.items, l.enabled = false := by
  unfold Unchanged disableAll CArray.mapItems
  rw [List.map_map]
  refine ⟨fun h l hl => ?_, fun h => ?_⟩
  · have hseen : (l.disable k).1.seen = l.seen := List.map_inj_left.mp h l hl
    exact (congrArg (fun s => s.2.1) hseen).symm.trans (Live.enabled_disable k l)
  · refine List.map_congr_left fun l hl => ?_
    show (l.disable k).1.seen = l.seen
    rw [Live.disable_of_not_enabled k (h l hl)]

theorem unchanged_modify_disable_iff {i : Nat} {l : Live κ} (hl : a.groups.items[i]? = some l) :
    a.Unchanged (a.modify i fun _ => (l.disable k).1) ↔ l.enabled = false := by
  refine ⟨fun h => ?_, fun h => ?_⟩
  · have hi : ((a.modify i fun _ => (l.disable k).1).groups.items.map Live.seen)[i]? =
        (a.groups.items.map Live.seen)[i]? := by rw [h]
    simp only [App.modify, CArray.mapItems, List.getElem?_map, List.getElem?_modify_eq, hl,
      Option.map_eq_map, Option.map_some, Option.some.injEq] at hi
    exact (congrArg (fun s => s.2.1) hi).symm.trans (Live.enabled_disable k l)
  · rw [Live.disable_of_not_enabled k h]
    have hsame : a.groups.items.modify i (fun _ => l) = a.groups.items := by
      refine List.ext_getElem? fun j => ?_
      rw [List.getElem?_modify]
      by_cases hij : i = j
      · subst hij
        simp [hl]
      · simp [hij]
    exact congrArg (List.map Live.seen) hsame

theorem existingGroup_disableAll (req : Json) :
    (a.disableAll k).existingGroup req = a.existingGroup req := by
  unfold existingGroup disableAll CArray.mapItems
  split
  · next id _ =>
    rw [List.find?_map, Option.map_map]
    have hp : (fun l : Live κ => decide (l.group.id = id)) ∘ (fun l : Live κ => (l.disable k).1) =
        fun l : Live κ => decide (l.group.id = id) := funext fun l => by simp
    have hg : Live.group ∘ (fun l : Live κ => (l.disable k).1) = Live.group :=
      funext fun l => Live.group_disable k l
    rw [hp, hg]
  · rfl

theorem buildGroups_disableAll (draw : Draw) (reqs : List Json) (i : Nat) :
    (a.disableAll k).buildGroups draw i reqs = a.buildGroups draw i reqs := by
  induction reqs generalizing i with
  | nil => rfl
  | cons req reqs ih =>
    unfold App.buildGroups
    rw [existingGroup_disableAll, ih]

/-- One group is added, or refused for its ids, or turned down by the kernel. -/
theorem addGroup_cases (g : Group) :
    (groupIdsConflict a.configGroups g = true ∧ ∃ e, a.addGroup k g = (a, some (.conflict e))) ∨
      (groupIdsConflict a.configGroups g = false ∧
        ((∃ b, a.addGroup k g = (b, none) ∧ b.running = a.running ∧
            b.groups.items = a.groups.items ++ [a.bringUp k g] ∧
            (a.running → ((Live.new g).start k).2 = none)) ∨
          ∃ b e, a.addGroup k g = (b, some (.kernel e)) ∧ b.groups.items = a.groups.items ∧
            a.running ∧ ((Live.new g).start k).2 ≠ none)) := by
  have hany : a.configGroups.any (fun g' => g'.id = g.id) =
      a.groups.items.any fun l => l.group.id = g.id := List.any_map ..
  unfold App.addGroup
  split_ifs with h₁ h₂ h₃
  · exact .inl ⟨by rw [groupIdsConflict, hany, h₁, Bool.true_or], _, rfl⟩
  · exact .inl ⟨by rw [groupIdsConflict, h₂, Bool.or_true], _, rfl⟩
  all_goals
    have hc : groupIdsConflict a.configGroups g = false := by
      rw [groupIdsConflict, hany, Bool.or_eq_false_iff]
      exact ⟨Bool.eq_false_iff.mpr h₁, Bool.eq_false_iff.mpr h₂⟩
    refine .inr ⟨hc, ?_⟩
  · split
    · next l hl =>
      refine .inl ⟨_, rfl, rfl, ?_, fun _ => by rw [hl]⟩
      show a.groups.items ++ [l] = _
      rw [bringUp, if_pos h₃, hl]
    · next l e hl =>
      refine .inr ⟨_, e, rfl, ?_, h₃, by rw [hl]; exact Option.some_ne_none e⟩
      show (a.groups.items ++ [l]).eraseIdx a.groups.items.length = _
      rw [List.eraseIdx_append_of_length_le (Nat.le_refl _), Nat.sub_self, List.eraseIdx_cons_zero,
        List.append_nil]
  · refine .inl ⟨_, rfl, rfl, ?_, fun h => absurd h h₃⟩
    show a.groups.items ++ [Live.new g] = _
    rw [bringUp, if_neg h₃]

theorem group_bringUp (g : Group) : (a.bringUp k g).group = g := by
  unfold bringUp
  split_ifs
  · rw [Live.group_start, Live.new]
  · rfl

/-- Where a conflict stops the additions, the groups before it have been added. -/
theorem addGroups_conflict {gs : List Group} {e : Err} {a : App κ}
    (h : a.addGroups k gs = (b, some (.conflict e))) :
    b.groups.items = a.groups.items ++ (beforeConflict a.configGroups gs).map (a.bringUp k) := by
  induction gs generalizing a with
  | nil => cases h
  | cons g gs ih =>
    unfold App.addGroups at h
    rcases addGroup_cases (a := a) (k := k) g with ⟨hc, e', hadd⟩ |
      ⟨hc, ⟨a', hadd, hrun, hitems, -⟩ | ⟨a', e', hadd, -⟩⟩
    · rw [hadd] at h
      cases h
      rw [beforeConflict, if_pos hc, List.map_nil, List.append_nil]
    · rw [hadd] at h
      have hcfg : a'.configGroups = a.configGroups ++ [g] := by
        rw [configGroups, hitems, List.map_append, List.map_singleton, group_bringUp]
        rfl
      have hup : a'.bringUp k = a.bringUp k := by
        funext g'
        rw [bringUp, hrun]
        rfl
      rw [ih h, hitems, hcfg, hup, beforeConflict, if_neg (by rw [hc]; decide), List.map_cons,
        List.append_assoc, List.singleton_append]
    · rw [hadd] at h
      cases h

/-! ## The handlers -/

theorem handlePutGroups_unchanged_iff {draw : Draw} {body : Option Json} {save : Bool}
    (h : (a.handlePutGroups k draw body save).2.IsRefusal) :
    a.Unchanged (a.handlePutGroups k draw body save).1 ↔ a.PutGroupsHarmless k draw body := by
  unfold App.handlePutGroups PutGroupsHarmless at *
  cases body with
  | none => exact iff_of_true rfl trivial
  | some json =>
    simp only [Option.bind_some] at h ⊢
    cases harr : json.getArray "groups" with
    | none => exact iff_of_true rfl trivial
    | some reqs =>
      simp only [harr, buildGroups_disableAll] at h ⊢
      rcases hb : a.buildGroups draw 0 reqs with ⟨built, _ | msg⟩
      · simp only [hb] at h ⊢
        rcases hadd : (((a.disableAll k).log (built.flatMap builtStores)).clearGroups.addGroups k
          built) with ⟨b, _ | e⟩
        · rw [hadd] at h
          exact h.elim
        · cases e with
          | kernel e =>
            rw [hadd] at h
            exact h.elim
          | conflict e =>
            have hitems := addGroups_conflict hadd
            show List.map Live.seen b.groups.items = _ ↔ _
            rw [hitems]
            show List.map Live.seen ([] ++ (beforeConflict [] built).map (a.bringUp k)) = _ ↔ _
            rw [List.nil_append, List.map_map]
            rfl
      · exact unchanged_disableAll_iff

theorem handlePutGroup_unchanged_iff {draw : Draw} {groupID : Bytes} {body : Option Json}
    {save : Bool} (h : (a.handlePutGroup k draw groupID body save).2.IsRefusal) :
    a.Unchanged (a.handlePutGroup k draw groupID body save).1 ↔
      a.PutGroupHarmless groupID body := by
  unfold App.handlePutGroup PutGroupHarmless at *
  cases hres : a.resolveGroup groupID with
  | error r => exact iff_of_true rfl fun i l hl => by cases hl
  | ok p =>
    obtain ⟨i, l⟩ := p
    simp only [hres] at h ⊢
    cases body with
    | none => exact iff_of_true rfl fun i l _ hb => by cases hb
    | some json =>
      have hcond : (∀ i' l', Except.ok (i, l) = (.ok (i', l') : Except Reply (Nat × Live κ)) →
          (some json).isSome → l'.enabled = false) ↔ l.enabled = false := by
        refine ⟨fun h => h i l rfl rfl, fun h i' l' heq _ => ?_⟩
        cases heq
        exact h
      rw [hcond, ← unchanged_modify_disable_iff (k := k) (resolveGroup_ok hres)]
      rcases hd : l.disable k with ⟨l', _ | e⟩
      · simp only [hd] at h ⊢
        cases hg : groupFromReq json (some l'.group) (draw.group 0) (draw.rule 0) with
        | error msg => exact Iff.rfl
        | ok built =>
          rw [hg] at h
          simp only [replaceGroup] at h
          split at h
          · split at h
            · exact h.elim
            · exact h.elim
          · exact h.elim
      · simp only [hd, Reply.IsRefusal] at h

end App

/-- A replacement that is refused goes unnoticed exactly if it is harmless. -/
theorem refused_put_unchanged_iff (k : Kernel κ) (draw : Draw) (a : App κ) :
    (∀ body save, (a.handle k draw (.putGroups body save)).2.IsRefusal →
      (a.Unchanged (a.handle k draw (.putGroups body save)).1 ↔
        a.PutGroupsHarmless k draw body)) ∧
    ∀ groupID body save, (a.handle k draw (.putGroup groupID body save)).2.IsRefusal →
      (a.Unchanged (a.handle k draw (.putGroup groupID body save)).1 ↔
        a.PutGroupHarmless groupID body) :=
  ⟨fun _ _ => App.handlePutGroups_unchanged_iff, fun _ _ _ => App.handlePutGroup_unchanged_iff⟩

def enabledGroup : App Unit where
  groups := ⟨[⟨⟨⟨1, 0, 0, 0⟩, str "vpn", str "#ffffff", str "nwg0", true, .empty⟩, true, some ()⟩],
    some 8⟩
  subscriptions := .empty
  running := true
  saved := none
  stores := []

def otherId : Json := .obj [(str "id", .str (str "ffffffff"))]

def listedTwice : Json :=
  .obj [(str "groups", .arr (List.replicate 2 (.obj [(str "id", .str (str "01000000")),
    (str "name", .str (str "vpn")), (str "interface", .str (str "nwg0"))])))]

/-- Both are refused. The first leaves the group disabled; the second, which rebuilds the group as
it was before it comes to the repetition, leaves everything as it was. -/
theorem refused_put_unchanged_iff_enabledGroup :
    ¬ enabledGroup.Unchanged (enabledGroup.handle .willing (.counting 2)
        (.putGroup (str "01000000") (some otherId) false)).1 ∧
      enabledGroup.Unchanged (enabledGroup.handle .willing (.counting 2)
        (.putGroups (some listedTwice) false)).1 := by
  obtain ⟨hgroups, hgroup⟩ := refused_put_unchanged_iff .willing (.counting 2) enabledGroup
  refine ⟨fun h => ?_, (hgroups (some listedTwice) false trivial).mpr ?_⟩
  · have := (hgroup (str "01000000") (some otherId) false trivial).mp h 0 _ rfl rfl
    exact absurd this (by decide)
  · show List.map _ _ = _
    decide

/-- The body with another id is refused with 400; the group was enabled before and is not after. -/
theorem putGroup_refused_disables :
    let r := enabledGroup.handle .willing (.counting 2)
      (.putGroup (str "01000000") (some otherId) false)
    r.2.IsRefusal ∧ r.2.status = 400 ∧ enabledGroup.groups.items.map Live.enabled = [true] ∧
      r.1.groups.items.map Live.enabled = [false] ∧ ¬ enabledGroup.Unchanged r.1 := by
  refine ⟨trivial, by decide, by decide, by decide, ?_⟩
  unfold App.Unchanged
  decide

end MagiTrickle.Api
