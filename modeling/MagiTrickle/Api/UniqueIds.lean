import MagiTrickle.Api.Groups
import MagiTrickle.Lib.Runs
import MagiTrickle.Lib.Upsert

/-!
# Identifiers under requests

`mt_app_add_group` checks what it adds, so whatever enters the list of groups
has ids of its own. The handlers that edit a group in place make no such check:
a rule keeps the id in the body as soon as some rule of the group has it. The
ids of a group stay distinct if the ids a body carries over are distinct, and
are not those of rules that stay (`CarriesDistinct`).
-/

namespace MagiTrickle.Api

open MagiTrickle.Config

variable {κ : Type}

/-- The number of rules a body may make it draw ids for. -/
def Request.ruleCount : Request → Nat
  | .createRule _ _ _ => 1
  | .putGroup _ (some json) _ => ((json.getArray "rules").getD []).length
  | .putRules _ (some json) _ => ((json.getArray "rules").getD []).length
  | _ => 0

/-- The ids drawn for the first `n` rules are distinct and in nobody's use. -/
structure Draw.Fresh (draw : Draw) (a : App κ) (n : Nat) : Prop where
  inj : ∀ i < n, ∀ j < n, draw.rule 0 i = draw.rule 0 j → i = j
  unused : ∀ l ∈ a.groups.items, ∀ r ∈ l.group.rules.items, ∀ i < n, draw.rule 0 i ≠ r.id

def givenId (req : Json) : Option Id := (req.parseOptionalId "id").join

/-- The ids that a request makes the rules of its group keep are distinct: a rule that is created
does not come with the id of one that is there, and no rule that is there is named twice. Where a
request is refused nothing is asked of it. -/
def App.CarriesDistinct (a : App κ) : Request → Prop
  | .createRule groupID (some json) _ =>
    match a.resolveGroup groupID with
    | .error _ => True
    | .ok (_, l) => reusedId json l.group.rules.items = none
  | .putGroup groupID (some json) _ =>
    match a.resolveGroup groupID, json.getArray "rules" with
    | .ok (_, l), some reqs =>
      (json.parseOptionalId "id").any (fun id => id.all fun id => l.group.id = id) →
        (reqs.filterMap fun req => reusedId req l.group.rules.items).Nodup
    | _, _ => True
  | .putRules groupID (some json) _ =>
    match a.resolveGroup groupID, json.getArray "rules" with
    | .ok (_, l), some reqs =>
      (reqs.all fun req => (req.parseOptionalId "id").any fun id =>
          id.all fun id => l.group.rules.items.any fun r => r.id = id) →
        (reqs.filterMap givenId).Nodup
    | _, _ => True
  | _ => True

/-! ## Rules built from a body -/

theorem reusedId_mem {req : Json} {baseline : List Rule} {id : Id}
    (h : reusedId req baseline = some id) : ∃ r ∈ baseline, r.id = id := by
  unfold reusedId at h
  split at h
  · split at h
    · next hany =>
      cases h
      simpa using hany
    · cases h
  · cases h

theorem ids_rulesFromReq (baseline : List Rule) (draw : Nat → Id) (reqs : List Json) :
    (rulesFromReq baseline draw reqs).map Rule.id =
      reqs.mapIdx fun j req => (reusedId req baseline).getD (draw j) := by
  unfold rulesFromReq
  apply List.ext_getElem
  · simp
  · intro i hi hi'
    rw [List.getElem_map, List.getElem_mapIdx, List.getElem_mapIdx]
    rfl

/-- The ids of the rules of a group body are distinct exactly if those it carries over are. -/
theorem nodup_rulesFromReq {baseline : List Rule} {draw : Nat → Id} {reqs : List Json}
    (hinj : ∀ i < reqs.length, ∀ j < reqs.length, draw i = draw j → i = j)
    (hunused : ∀ r ∈ baseline, ∀ i < reqs.length, draw i ≠ r.id) :
    ((rulesFromReq baseline draw reqs).map Rule.id).Nodup ↔
      (reqs.filterMap fun req => reusedId req baseline).Nodup := by
  rw [ids_rulesFromReq]
  refine Lib.nodup_mapIdx_getD hinj fun i hi req _ hreq => ?_
  obtain ⟨r, hr, hid⟩ := reusedId_mem hreq
  exact hunused r hr i hi hid.symm

/-- A strict body that is accepted: every id in it is well formed and names a rule, and the rules
have these ids or the drawn ones. -/
theorem rulesFromReqStrict_ok {existing : List Rule} {draw : Nat → Id} {reqs : List Json}
    {j : Nat} {rules : List Rule}
    (h : App.rulesFromReqStrict existing draw j reqs = .ok rules) :
    (∀ req ∈ reqs, ∃ id, req.parseOptionalId "id" = some id ∧
      ∀ i ∈ id, ∃ r ∈ existing, r.id = i) ∧
    rules.map Rule.id = reqs.mapIdx fun i req => (givenId req).getD (draw (j + i)) := by
  induction reqs generalizing j rules with
  | nil =>
    cases h
    exact ⟨fun req hreq => absurd hreq List.not_mem_nil, rfl⟩
  | cons req reqs ih =>
    unfold App.rulesFromReqStrict at h
    split at h
    · cases h
    · next r hr =>
      cases hrest : App.rulesFromReqStrict existing draw (j + 1) reqs with
      | error e =>
        rw [hrest] at h
        cases h
      | ok rest =>
        rw [hrest] at h
        cases h
        obtain ⟨hall, hids⟩ := ih hrest
        have hhead : (∃ id, req.parseOptionalId "id" = some id ∧
            ∀ i ∈ id, ∃ r ∈ existing, r.id = i) ∧ r.id = (givenId req).getD (draw j) := by
          unfold ruleFromReqStrict at hr
          split at hr
          · cases hr
          · next hid =>
            cases hr
            exact ⟨⟨none, hid, by simp⟩, by simp [givenId, hid, fillRuleFields, Rule.blank]⟩
          · next id hid =>
            split at hr
            · next hany =>
              cases hr
              refine ⟨⟨some id, hid, ?_⟩, by simp [givenId, hid, fillRuleFields, Rule.blank]⟩
              simpa using hany
            · cases hr
        refine ⟨fun q hq => ?_, ?_⟩
        · rcases List.mem_cons.mp hq with rfl | hq
          · exact hhead.1
          · exact hall q hq
        · rw [List.map_cons, List.mapIdx_cons, hids, hhead.2, Nat.add_zero]
          have hshift : ∀ i, j + 1 + i = j + (i + 1) := fun i => by omega
          simp only [hshift]
          rfl

namespace App

/-- The ids of the groups and of the rules in each group are distinct, here and in the file. -/
structure IdsUnique (a : App κ) : Prop where
  live : UniqueIds a.configGroups
  saved : ∀ s ∈ a.saved, UniqueIds s.1

variable {a b : App κ} {k : Kernel κ}

theorem IdsUnique.of_eq {β : Type} {r : App κ × β} {x : β} (h : r.1.IdsUnique)
    (hr : r = (b, x)) : b.IdsUnique := by
  rwa [hr] at h

theorem IdsUnique.congr (h : a.IdsUnique) (hg : b.configGroups = a.configGroups)
    (hs : b.saved = a.saved) : b.IdsUnique :=
  ⟨hg ▸ h.live, hs ▸ h.saved⟩

theorem IdsUnique.maybeSave (h : a.IdsUnique) (save : Bool) : (a.maybeSave save).IdsUnique := by
  unfold App.maybeSave
  split_ifs
  · refine ⟨h.live, fun s hs => ?_⟩
    cases hs
    exact h.live
  · exact h

theorem IdsUnique.eraseGroup (h : a.IdsUnique) (i : Nat) :
    IdsUnique { a with groups := a.groups.eraseIdx i } :=
  ⟨h.live.sublist ((List.eraseIdx_sublist ..).map _), h.saved⟩

theorem configGroups_disableAll (k : Kernel κ) (a : App κ) :
    (a.disableAll k).configGroups = a.configGroups := by
  unfold configGroups disableAll CArray.mapItems
  rw [List.map_map]
  exact List.map_congr_left fun l _ => Live.group_disable k l

/-! ## The list of groups -/

theorem configGroups_modify {i : Nat} {l' : Live κ} :
    (a.modify i fun _ => l').configGroups = a.configGroups.set i l'.group := by
  unfold configGroups App.modify CArray.mapItems
  apply List.ext_getElem?
  intro j
  simp only [List.getElem?_map, List.getElem?_modify, List.getElem?_set, List.length_map]
  by_cases hij : i = j
  · subst hij
    by_cases hi : i < a.groups.items.length
    · simp [hi]
    · simp [hi]
  · simp [hij]

theorem IdsUnique.modify (h : a.IdsUnique) {i : Nat} {l l' : Live κ}
    (hl : a.groups.items[i]? = some l) (hid : l'.group.id = l.group.id)
    (hrules : (l'.group.rules.items.map Rule.id).Nodup) :
    (a.modify i fun _ => l').IdsUnique := by
  have hg : a.configGroups[i]? = some l.group := by
    rw [configGroups, List.getElem?_map, hl]
    rfl
  obtain ⟨hi, hgi⟩ := List.getElem?_eq_some_iff.mp hg
  refine ⟨?_, h.saved⟩
  rw [configGroups_modify]
  refine ⟨?_, fun g hmem => ?_⟩
  · rw [List.map_set, hid]
    rw [show (a.configGroups.map Group.id).set i l.group.id = a.configGroups.map Group.id from ?_]
    · exact h.live.1
    · rw [← hgi, ← List.getElem_map Group.id (h := by simpa using hi), List.set_getElem_self]
  · rcases List.mem_or_eq_of_mem_set hmem with hmem | rfl
    · exact h.live.2 g hmem
    · exact hrules

theorem IdsUnique.addGroup (h : a.IdsUnique) (g : Group) : (a.addGroup k g).1.IdsUnique := by
  unfold App.addGroup
  split_ifs with hany hrules hrun
  · exact h
  · exact h
  all_goals
    have hc : groupIdsConflict a.configGroups g = false := by
      rw [groupIdsConflict, Bool.or_eq_false_iff]
      refine ⟨?_, Bool.eq_false_iff.mpr hrules⟩
      rw [configGroups, List.any_map]
      exact Bool.eq_false_iff.mpr hany
    have hnew : UniqueIds (a.configGroups ++ [g]) := uniqueIds_append_singleton.mpr ⟨h.live, hc⟩
    have hpush : ∀ l : Live κ, l.group = g → (a.pushGroup l).configGroups = a.configGroups ++ [g] := by
      rintro l rfl
      exact List.map_append ..
  · split
    · next l hl =>
      have hlg : l.group = g := by
        rw [← show ((Live.new g).start k).1 = l from by rw [hl], Live.group_start, Live.new]
      refine IdsUnique.congr (a := a.pushGroup l) ⟨?_, h.saved⟩ rfl rfl
      rwa [hpush l hlg]
    · next l e hl =>
      refine h.congr ?_ rfl
      show ((a.groups.items ++ [l]).eraseIdx a.groups.items.length).map Live.group = _
      rw [List.eraseIdx_append_of_length_le (Nat.le_refl _), Nat.sub_self]
      simp [configGroups]
  · refine IdsUnique.congr (a := a.pushGroup (Live.new g)) ⟨?_, h.saved⟩ rfl rfl
    rwa [hpush _ rfl]

theorem IdsUnique.addGroups (gs : List Group) {a : App κ} (h : a.IdsUnique) :
    (a.addGroups k gs).1.IdsUnique := by
  induction gs generalizing a with
  | nil => exact h
  | cons g gs ih =>
    have hadd := h.addGroup (k := k) g
    unfold App.addGroups
    split
    · next b e hb => exact hadd.of_eq hb
    · next b hb => exact ih (hadd.of_eq hb)

/-! ## Requests -/

theorem IdsUnique.handlePutGroups (h : a.IdsUnique) (draw : Draw) (body : Option Json)
    (save : Bool) : (a.handlePutGroups k draw body save).1.IdsUnique := by
  unfold App.handlePutGroups
  split
  · exact h
  · split
    · exact h
    · simp only
      split
      · exact h.congr (configGroups_disableAll k a) rfl
      · next built _ =>
        have hempty : ((a.disableAll k).log (built.flatMap builtStores)).clearGroups.IdsUnique :=
          ⟨⟨List.nodup_nil, fun g hg => absurd hg List.not_mem_nil⟩, h.saved⟩
        have hadd := hempty.addGroups (k := k) built
        split
        · next b e hb => exact hadd.of_eq hb
        · next b hb => exact (hadd.of_eq hb).maybeSave save

theorem IdsUnique.handleCreateGroup (h : a.IdsUnique) (draw : Draw) (body : Option Json)
    (save : Bool) : (a.handleCreateGroup k draw body save).1.IdsUnique := by
  unfold App.handleCreateGroup
  split
  · exact h
  · split
    · exact h
    · next g _ =>
      have hlog : (a.log (builtStores g)).IdsUnique := h.congr rfl rfl
      have hadd := hlog.addGroup (k := k) g
      split
      · next b e hb => exact hadd.of_eq hb
      · next b hb => exact (hadd.of_eq hb).maybeSave save

theorem IdsUnique.nodup_rules (h : a.IdsUnique) {i : Nat} {l : Live κ}
    (hl : a.groups.items[i]? = some l) : (l.group.rules.items.map Rule.id).Nodup :=
  h.live.2 l.group (List.mem_map_of_mem (List.mem_of_getElem? hl))

/-- A runtime change at `i` leaves the group as it is. -/
theorem IdsUnique.modify_runtime (h : a.IdsUnique) {i : Nat} {l l' : Live κ}
    (hl : a.groups.items[i]? = some l) (hg : l'.group = l.group) :
    (a.modify i fun _ => l').IdsUnique :=
  h.modify hl (congrArg Group.id hg) (hg ▸ h.nodup_rules hl)

theorem IdsUnique.syncAfterEdit (h : a.IdsUnique) {i : Nat} {l l' : Live κ}
    (hl : a.groups.items[i]? = some l) (hid : l'.group.id = l.group.id)
    (hrules : (l'.group.rules.items.map Rule.id).Nodup) (save : Bool) (body : Option Json) :
    (a.syncAfterEdit k i l' save body).1.IdsUnique := by
  have hsync : ∀ l₁ e, l'.sync k = (l₁, e) → (a.modify i fun _ => l₁).republish.IdsUnique := by
    intro l₁ e he
    have hg : l₁.group = l'.group := by rw [← Live.group_sync k l', he]
    exact (h.modify hl (by rw [hg, hid]) (by rwa [hg])).congr rfl rfl
  unfold App.syncAfterEdit
  split
  · next l₁ e he => exact hsync l₁ _ he
  · next l₁ he => exact (hsync l₁ _ he).maybeSave save

theorem IdsUnique.replaceGroup (h : a.IdsUnique) {i : Nat} {l l' : Live κ}
    (hl : a.groups.items[i]? = some l) (hid : l'.group.id = l.group.id)
    (hrules : (l'.group.rules.items.map Rule.id).Nodup) (wasEnabled save : Bool) :
    (a.replaceGroup k i l' wasEnabled save).1.IdsUnique := by
  have hmod : ∀ l₁ : Live κ, l₁.group = l'.group →
      (a.modify i fun _ => l₁).republish.IdsUnique := by
    intro l₁ hg
    exact (h.modify hl (by rw [hg, hid]) (by rwa [hg])).congr rfl rfl
  unfold App.replaceGroup
  split_ifs
  · split
    · next l₁ e he => exact hmod l₁ (by rw [← Live.group_start k l', he])
    · next l₁ he => exact (hmod l₁ (by rw [← Live.group_start k l', he])).maybeSave save
  · exact (hmod l' rfl).maybeSave save

theorem nodup_groupFromReq {json : Json} {g built : Group} {drawGroup : Id} {drawRule : Nat → Id}
    (h : groupFromReq json (some g) drawGroup drawRule = .ok built)
    (hg : (g.rules.items.map Rule.id).Nodup)
    (hinj : ∀ i < ((json.getArray "rules").getD []).length,
      ∀ j < ((json.getArray "rules").getD []).length, drawRule i = drawRule j → i = j)
    (hunused : ∀ r ∈ g.rules.items, ∀ i < ((json.getArray "rules").getD []).length,
      drawRule i ≠ r.id)
    (hgiven : ∀ reqs, json.getArray "rules" = some reqs →
      (json.parseOptionalId "id").any (fun id => id.all fun id => g.id = id) →
        (reqs.filterMap fun req => reusedId req g.rules.items).Nodup) :
    (built.rules.items.map Rule.id).Nodup := by
  obtain ⟨rules, hrules, hbuilt⟩ := rules_of_groupFromReq h
  have hidok : (json.parseOptionalId "id").any (fun id => id.all fun id => g.id = id) := by
    unfold groupFromReq at h
    split at h
    · cases h
    · next reqId hid =>
      split at h
      · cases h
      · next hmis =>
        cases reqId with
        | none => simp [hid]
        | some id => simpa [hid] using hmis
  rw [hbuilt, CArray.items_pushAll]
  show (rules.map Rule.id).Nodup
  unfold groupRulesFromReq at hrules
  simp only [Option.elim_some] at hrules
  split at hrules
  · cases hrules
    exact hg
  · cases hrules
    exact hg
  · next reqs harr =>
    cases hrules
    have harr : json.getArray "rules" = some reqs := by simp [Json.getArray, harr]
    rw [harr] at hinj hunused
    exact (nodup_rulesFromReq hinj hunused).mpr (hgiven reqs harr hidok)
  · cases hrules

theorem IdsUnique.handlePutGroup (h : a.IdsUnique) (draw : Draw) (groupID : Bytes)
    (body : Option Json) (save : Bool)
    (hfresh : draw.Fresh a (Request.putGroup groupID body save).ruleCount)
    (hgiven : a.CarriesDistinct (.putGroup groupID body save)) :
    (a.handlePutGroup k draw groupID body save).1.IdsUnique := by
  unfold App.handlePutGroup
  split
  · exact h
  · next i l hres =>
    have hl := resolveGroup_ok hres
    split
    · exact h
    · next json =>
      split
      · next l' e hd => exact h.modify_runtime hl (by rw [← Live.group_disable k l, hd])
      · next l' hd =>
        have hg : l'.group = l.group := by rw [← Live.group_disable k l, hd]
        have hmod := h.modify_runtime hl hg
        have hl' : (a.modify i fun _ => l').groups.items[i]? = some l' := by
          simp [App.modify, CArray.mapItems, hl]
        simp only
        split
        · exact hmod
        · next built hbuilt =>
          have hlog : ((a.modify i fun _ => l').log (builtStores built)).IdsUnique :=
            hmod.congr rfl rfl
          refine hlog.replaceGroup hl' ?_ ?_ _ save
          · rfl
          rw [hg] at hbuilt
          show (built.rules.items.map Rule.id).Nodup
          refine nodup_groupFromReq hbuilt (h.nodup_rules hl) hfresh.inj
            (hfresh.unused l (List.mem_of_getElem? hl)) fun reqs harr hid => ?_
          simp only [CarriesDistinct, hres, harr] at hgiven
          exact hgiven hid

theorem IdsUnique.handleDeleteGroup (h : a.IdsUnique) (groupID : Bytes) (save : Bool) :
    (a.handleDeleteGroup k groupID save).1.IdsUnique := by
  unfold App.handleDeleteGroup
  split
  · exact h
  · next i l hres =>
    split
    · next l' e hd =>
      exact h.modify_runtime (resolveGroup_ok hres) (by rw [← Live.group_disable k l, hd])
    · have hrem : (a.removeGroupByIndex i).IdsUnique := (h.eraseGroup i).congr rfl rfl
      exact hrem.maybeSave save

theorem IdsUnique.handlePutRules (h : a.IdsUnique) (draw : Draw) (groupID : Bytes)
    (body : Option Json) (save : Bool)
    (hfresh : draw.Fresh a (Request.putRules groupID body save).ruleCount)
    (hgiven : a.CarriesDistinct (.putRules groupID body save)) :
    (a.handlePutRules k draw groupID body save).1.IdsUnique := by
  unfold App.handlePutRules
  split
  · exact h
  · next i l hres =>
    have hl := resolveGroup_ok hres
    split
    · exact h
    · next json =>
      split
      · exact h
      · next reqs harr =>
        split
        · exact h
        · exact h
        · next rules hrules =>
          refine h.syncAfterEdit hl ?_ ?_ save _
          · rfl
          show (rules.map Rule.id).Nodup
          obtain ⟨hall, hids⟩ := rulesFromReqStrict_ok hrules
          simp only [CarriesDistinct, hres, harr] at hgiven
          simp only [Request.ruleCount, harr, Option.getD_some] at hfresh
          have hnamed : ∀ req ∈ reqs, ∀ id, givenId req = some id →
              ∃ r ∈ l.group.rules.items, r.id = id := by
            intro req hreq id hid
            obtain ⟨oid, hoid, hmem⟩ := hall req hreq
            rw [givenId, hoid] at hid
            exact hmem id hid
          rw [hids]
          simp only [Nat.zero_add]
          refine (Lib.nodup_mapIdx_getD hfresh.inj fun j hj req hreq hid => ?_).mpr (hgiven ?_)
          · obtain ⟨r, hr, hrid⟩ := hnamed req hreq _ hid
            exact hfresh.unused l (List.mem_of_getElem? hl) r hr j hj hrid.symm
          · rw [List.all_eq_true]
            intro req hreq
            obtain ⟨oid, hoid, hmem⟩ := hall req hreq
            rw [hoid]
            cases oid with
            | none => rfl
            | some id =>
              obtain ⟨r, hr, hrid⟩ := hmem id rfl
              simpa using ⟨r, hr, hrid⟩

theorem IdsUnique.handleCreateRule (h : a.IdsUnique) (draw : Draw) (groupID : Bytes)
    (body : Option Json) (save : Bool) (hfresh : draw.Fresh a 1)
    (hgiven : a.CarriesDistinct (.createRule groupID body save)) :
    (a.handleCreateRule k draw groupID body save).1.IdsUnique := by
  unfold App.handleCreateRule
  split
  · exact h
  · next i l hres =>
    have hl := resolveGroup_ok hres
    split
    · exact h
    · next json =>
      simp only [CarriesDistinct, hres] at hgiven
      have hlog : (a.log [l.group.rules.store]).IdsUnique := h.congr rfl rfl
      refine hlog.syncAfterEdit hl ?_ ?_ save _
      · rfl
      show ((l.group.rules.items ++ [ruleFromReq json l.group.rules.items (draw.rule 0 0)]).map
        Rule.id).Nodup
      have hid : (ruleFromReq json l.group.rules.items (draw.rule 0 0)).id = draw.rule 0 0 := by
        simp [ruleFromReq, hgiven, fillRuleFields, Rule.blank]
      rw [List.map_append, List.map_singleton, hid]
      refine (h.nodup_rules hl).append (List.nodup_singleton _) ?_
      rw [List.disjoint_singleton]
      intro hmem
      obtain ⟨r, hr, hrid⟩ := List.mem_map.mp hmem
      exact hfresh.unused l (List.mem_of_getElem? hl) r hr 0 Nat.one_pos hrid.symm

theorem IdsUnique.handlePutRule (h : a.IdsUnique) (groupID ruleID : Bytes) (body : Option Json)
    (save : Bool) : (a.handlePutRule k groupID ruleID body save).1.IdsUnique := by
  unfold App.handlePutRule
  split
  · exact h
  · next i l hres =>
    split
    · exact h
    · next j r hr =>
      have hl := resolveGroup_ok hres
      split
      · exact h
      · next json =>
        refine h.syncAfterEdit hl ?_ ?_ save _
        · rfl
        show ((l.group.rules.items.set j (fillRuleFields r json)).map Rule.id).Nodup
        obtain ⟨hj, hrj⟩ := List.getElem?_eq_some_iff.mp (resolveRule_ok hr)
        have hsame : (l.group.rules.items.map Rule.id).set j (fillRuleFields r json).id =
            l.group.rules.items.map Rule.id := by
          rw [show (fillRuleFields r json).id = r.id from rfl, ← hrj,
            ← List.getElem_map Rule.id (h := by simpa using hj), List.set_getElem_self]
        rw [List.map_set, hsame]
        exact h.nodup_rules hl

theorem IdsUnique.handleDeleteRule (h : a.IdsUnique) (groupID ruleID : Bytes) (save : Bool) :
    (a.handleDeleteRule k groupID ruleID save).1.IdsUnique := by
  unfold App.handleDeleteRule
  split
  · exact h
  · next i l hres =>
    split
    · exact h
    · next j r _ =>
      have hl := resolveGroup_ok hres
      refine h.syncAfterEdit hl ?_ ?_ save _
      · rfl
      exact (h.nodup_rules hl).sublist ((List.eraseIdx_sublist ..).map _)

theorem handle_idsUnique (draw : Draw) (req : Request) (h : a.IdsUnique)
    (hfresh : draw.Fresh a req.ruleCount) (hgiven : a.CarriesDistinct req) :
    (a.handle k draw req).1.IdsUnique := by
  cases req with
  | putGroups body save => exact h.handlePutGroups draw body save
  | createGroup body save => exact h.handleCreateGroup draw body save
  | putGroup groupID body save => exact h.handlePutGroup draw groupID body save hfresh hgiven
  | deleteGroup groupID save => exact h.handleDeleteGroup groupID save
  | putRules groupID body save => exact h.handlePutRules draw groupID body save hfresh hgiven
  | createRule groupID body save => exact h.handleCreateRule draw groupID body save hfresh hgiven
  | putRule groupID ruleID body save => exact h.handlePutRule groupID ruleID body save
  | deleteRule groupID ruleID save => exact h.handleDeleteRule groupID ruleID save
  | getGroups withRules => exact h
  | getGroup groupID withRules => exact h
  | getRules groupID => exact h
  | getRule groupID ruleID => exact h

end App

/-! ## Runs of requests -/

open Lib.Runs (Guarded)

structure Call (κ : Type) where
  kernel : Kernel κ
  draw : Draw
  req : Request

def App.call (a : App κ) (c : Call κ) : App κ := (a.handle c.kernel c.draw c.req).1

/-- The ids drawn are fresh, and the ids carried over distinct. -/
def App.CallOk (a : App κ) (c : Call κ) : Prop :=
  c.draw.Fresh a c.req.ruleCount ∧ a.CarriesDistinct c.req

/-- In a run of such requests the ids stay distinct after every one of them, and the loader's check
passes both the configuration and the file. -/
theorem calls_idsUnique (a : App κ) (h : UniqueIds a.configGroups)
    (hsaved : ∀ s ∈ a.saved, UniqueIds s.1) (calls : List (Call κ))
    (hcalls : Guarded App.CallOk App.call a calls) {pre post : List (Call κ)}
    (hpre : calls = pre ++ post) :
    UniqueIds (pre.foldl App.call a).configGroups ∧
      loadAccepts [] (pre.foldl App.call a).configGroups ∧
      ∀ s ∈ (pre.foldl App.call a).saved, loadAccepts [] s.1 := by
  rw [hpre, Guarded.append] at hcalls
  have hrun : (pre.foldl App.call a).IdsUnique :=
    hcalls.1.inv (I := App.IdsUnique)
      (fun b c hb hc => App.handle_idsUnique c.draw c.req hb hc.1 hc.2) ⟨h, hsaved⟩
  have hnil : UniqueIds [] := ⟨List.nodup_nil, fun g hg => absurd hg List.not_mem_nil⟩
  refine ⟨hrun.live, (loadAccepts_iff hnil).mpr hrun.live, fun s hs => ?_⟩
  exact (loadAccepts_iff hnil).mpr (hrun.saved s hs)

def oneRule : App Unit where
  groups := ⟨[.new ⟨⟨1, 0, 0, 0⟩, str "vpn", str "#ffffff", str "nwg0", true,
    ⟨[⟨⟨2, 0, 0, 0⟩, [], str "domain", str "example.com", true⟩], some 8⟩⟩], some 8⟩
  subscriptions := .empty
  running := false
  saved := none
  stores := []

def createThenPut : List (Call Unit) :=
  [⟨.willing, .counting 3, .createRule (str "01000000") (some (.obj [])) false⟩,
    ⟨.willing, .counting 4, .putRules (str "01000000") (some (.obj [(str "rules",
      .arr [.obj [(str "id", .str (str "02000000"))], .obj []])])) true⟩]

theorem calls_idsUnique_createThenPut :
    UniqueIds (createThenPut.foldl App.call oneRule).configGroups ∧
      loadAccepts [] (createThenPut.foldl App.call oneRule).configGroups ∧
      ∀ s ∈ (createThenPut.foldl App.call oneRule).saved, loadAccepts [] s.1 :=
  calls_idsUnique oneRule (by decide) (fun s hs => by cases hs) createThenPut
    ⟨⟨⟨by decide, by decide⟩, show reusedId _ _ = none by decide⟩,
      ⟨⟨by decide, by decide⟩, show _ → List.Nodup _ from fun _ => by decide⟩, trivial⟩
    (List.append_nil createThenPut).symm

/-- A rule created with the id of the one that is there: the request is answered with 200, the
group has the id twice, and the file that was saved does not load again. -/
theorem createRule_repeats_id :
    let r := oneRule.handle .willing (.counting 3)
      (.createRule (str "01000000") (some (.obj [(str "id", .str (str "02000000"))])) true)
    UniqueIds oneRule.configGroups ∧ r.2.status = 200 ∧ ¬ UniqueIds r.1.configGroups ∧
      ∃ s ∈ r.1.saved, loadAccepts [] s.1 = false := by
  refine ⟨by decide, rfl, by decide, _, rfl, by decide⟩

end MagiTrickle.Api
