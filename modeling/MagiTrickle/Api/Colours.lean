import MagiTrickle.Api.Refused
import MagiTrickle.Api.Subscriptions
import MagiTrickle.Api.UniqueIds

/-!
# Colours are kept normal

The loader and the handlers that build a group put its colour into normal form,
and no other operation sets a colour. So in every state of a daemon the colours
are fixed by `mt_group_normalize_color` (`daemon_coloured`).
-/

namespace MagiTrickle

namespace Config

/-- `mt_group_normalize_color` leaves the colour as it is. -/
def NormalColor (g : Group) : Prop := normalizeColor g.color = g.color

def lowerHex (c : UInt8) : UInt8 := if 65 ≤ c ∧ c ≤ 70 then c - 65 + 97 else c

theorem lowerHex_isHex (c : UInt8) (h : isHexLowerOrUpper c) :
    isHexLowerOrUpper (lowerHex c) ∧ lowerHex (lowerHex c) = lowerHex c := by
  have hall : ∀ n < 256, isHexLowerOrUpper (UInt8.ofNat n) →
      isHexLowerOrUpper (lowerHex (UInt8.ofNat n)) ∧
        lowerHex (lowerHex (UInt8.ofNat n)) = lowerHex (UInt8.ofNat n) := by
    decide +kernel
  have hc := hall c.toNat c.toNat_lt
  rw [UInt8.ofNat_toNat] at hc
  exact hc h

theorem normalizeColor_hex {ds : Bytes} (hlen : ds.length = 6) (hds : ds.all isHexLowerOrUpper) :
    normalizeColor (35 :: ds) = 35 :: ds.map lowerHex :=
  if_pos ⟨hlen, hds⟩

theorem normalizeColor_cases (c : Bytes) :
    normalizeColor c = str "#ffffff" ∨
      ∃ ds : Bytes, ds.length = 6 ∧ ds.all isHexLowerOrUpper ∧
        normalizeColor c = 35 :: ds.map lowerHex := by
  unfold normalizeColor
  split
  · next ds =>
    by_cases hds : ds.length = 6 ∧ ds.all isHexLowerOrUpper
    · rw [if_pos hds]
      exact .inr ⟨ds, hds.1, hds.2, rfl⟩
    · rw [if_neg hds]
      exact .inl rfl
  · exact .inl rfl

theorem normalizeColor_idem (c : Bytes) :
    normalizeColor (normalizeColor c) = normalizeColor c := by
  rcases normalizeColor_cases c with h | ⟨ds, hlen, hds, h⟩
  · rw [h]
    decide +kernel
  · have hlow : ∀ d ∈ ds.map lowerHex, isHexLowerOrUpper d ∧ lowerHex d = d := by
      intro d hd
      obtain ⟨c, hc, rfl⟩ := List.mem_map.mp hd
      exact lowerHex_isHex c (List.all_eq_true.mp hds c hc)
    rw [h, normalizeColor_hex (by rw [List.length_map, hlen])
      (List.all_eq_true.mpr fun d hd => (hlow d hd).1),
      List.map_congr_left fun d hd => (hlow d hd).2, List.map_id']

theorem normalColor_of_groupFromReq {req : Api.Json} {existing : Option Group} {drawGroup : Id}
    {drawRule : Nat → Id} {g : Group}
    (h : Api.groupFromReq req existing drawGroup drawRule = .ok g) : NormalColor g := by
  unfold Api.groupFromReq at h
  split at h
  · cases h
  · split at h
    · cases h
    · split at h
      · cases h
      · cases h
        exact normalizeColor_idem _

/-! ## The loader -/

theorem loadGroups_normal {a : CArray Group} (ha : ∀ g ∈ a.items, NormalColor g)
    {ns : List GroupNode} {b : CArray Group} (h : (loadGroups a ns).2 = .ok b) :
    ∀ g ∈ b.items, NormalColor g := by
  induction ns generalizing a with
  | nil =>
    cases h
    exact ha
  | cons n ns ih =>
    rw [loadGroups] at h
    split at h
    · cases h
    · split at h
      · cases h
      · refine ih (fun g hg => ?_) h
        rcases List.mem_append.mp hg with hg | hg
        · exact ha g hg
        · cases List.mem_singleton.mp hg
          exact normalizeColor_idem n.color

theorem loadBuffer_normal {doc : Doc} {cfg : Config}
    (h : (loadBuffer initDefaults doc).2 = .ok cfg) : ∀ g ∈ cfg.groups.items, NormalColor g := by
  have hsection : ∀ {cfg' : Config}, (loadGroupsSection initDefaults doc.groups).2 = .ok cfg' →
      ∀ g ∈ cfg'.groups.items, NormalColor g := by
    intro cfg' h'
    unfold loadGroupsSection at h'
    split at h'
    · cases h'
    · cases h'
      exact fun g hg => absurd hg List.not_mem_nil
    · next ns _ =>
      dsimp only at h'
      cases hl : (loadGroups (initDefaults.groups.mapItems fun _ => []) ns).2 with
      | error e =>
        rw [hl] at h'
        cases h'
      | ok b =>
        rw [hl] at h'
        cases h'
        exact loadGroups_normal (fun g hg => absurd hg List.not_mem_nil) hl
  unfold loadBuffer at h
  split at h
  · cases h
  · split at h
    · cases h
    · next st cfg₁ hload =>
      have hcfg₁ : ∀ g ∈ cfg₁.groups.items, NormalColor g := hsection (by rw [hload])
      have hsame : cfg.groups = cfg₁.groups := by
        unfold loadSubscriptionsSection at h
        split at h
        · cases h
        · cases h
          rfl
        · next ns _ =>
          dsimp only at h
          cases hl : (loadSubscriptions (cfg₁.subscriptions.mapItems fun _ => []) ns).2 with
          | error e =>
            rw [hl] at h
            cases h
          | ok b =>
            rw [hl] at h
            cases h
            rfl
      rw [hsame]
      exact hcfg₁

end Config

namespace Api

open MagiTrickle.Config

variable {κ : Type}

namespace App

def Coloured (a : App κ) : Prop := ∀ g ∈ a.configGroups, NormalColor g

variable {a b : App κ} {k : Kernel κ}

theorem Coloured.congr (h : a.Coloured) (hg : b.configGroups = a.configGroups) : b.Coloured := by
  unfold Coloured
  rw [hg]
  exact h

theorem Coloured.of_eq {β : Type} {r : App κ × β} {x : β} (h : r.1.Coloured) (hr : r = (b, x)) :
    b.Coloured := by
  rwa [hr] at h

theorem Coloured.maybeSave (h : a.Coloured) (save : Bool) : (a.maybeSave save).Coloured := by
  unfold App.maybeSave
  split_ifs
  · exact h
  · exact h

theorem Coloured.modify (h : a.Coloured) (i : Nat) {l : Live κ} (hl : NormalColor l.group) :
    (a.modify i fun _ => l).Coloured := by
  intro g hg
  rw [configGroups_modify] at hg
  rcases List.mem_or_eq_of_mem_set hg with hg | rfl
  · exact h g hg
  · exact hl

theorem Coloured.eraseGroup (h : a.Coloured) (i : Nat) :
    Coloured { a with groups := a.groups.eraseIdx i } :=
  fun g hg => h g (((List.eraseIdx_sublist ..).map _).subset hg)

theorem Coloured.get (h : a.Coloured) {i : Nat} {l : Live κ} (hl : a.groups.items[i]? = some l) :
    NormalColor l.group :=
  h l.group (List.mem_map_of_mem (List.mem_of_getElem? hl))

theorem Coloured.addGroup (h : a.Coloured) {g : Group} (hg : NormalColor g) :
    (a.addGroup k g).1.Coloured := by
  rcases addGroup_cases (a := a) (k := k) g with ⟨-, e, hadd⟩ |
    ⟨-, ⟨b, hadd, -, hitems, -⟩ | ⟨b, e, hadd, hitems, -⟩⟩
  · rw [hadd]
    exact h
  · rw [hadd]
    intro g' hg'
    rw [configGroups, hitems, List.map_append, List.map_singleton, group_bringUp] at hg'
    rcases List.mem_append.mp hg' with hg' | hg'
    · exact h g' hg'
    · cases List.mem_singleton.mp hg'
      exact hg
  · rw [hadd]
    refine h.congr ?_
    rw [configGroups, hitems]
    rfl

theorem Coloured.addGroups {gs : List Group} (hgs : ∀ g ∈ gs, NormalColor g) {a : App κ}
    (h : a.Coloured) : (a.addGroups k gs).1.Coloured := by
  induction gs generalizing a with
  | nil => exact h
  | cons g gs ih =>
    have hadd := h.addGroup (k := k) (hgs g List.mem_cons_self)
    unfold App.addGroups
    split
    · next b e hb => exact hadd.of_eq hb
    · next b hb => exact ih (fun g' hg' => hgs g' (List.mem_cons_of_mem _ hg')) (hadd.of_eq hb)

theorem coloured_clearGroups (a : App κ) : a.clearGroups.Coloured :=
  fun _ hg => absurd hg List.not_mem_nil

/-! ## Requests -/

theorem Coloured.handlePutGroups (h : a.Coloured) (draw : Draw) (body : Option Json)
    (save : Bool) : (a.handlePutGroups k draw body save).1.Coloured := by
  unfold App.handlePutGroups
  split
  · exact h
  · split
    · exact h
    · next reqs _ =>
      have hbuilt := forall_buildGroups (a := a.disableAll k) (d := draw) (P := NormalColor)
        (fun i req g hg => normalColor_of_groupFromReq hg) reqs 0
      simp only
      split
      · exact h.congr (configGroups_disableAll k a)
      · next built hb =>
        rw [hb] at hbuilt
        have hadd := (coloured_clearGroups
          ((a.disableAll k).log (built.flatMap builtStores))).addGroups (k := k) hbuilt
        split
        · next b e hb => exact hadd.of_eq hb
        · next b hb => exact (hadd.of_eq hb).maybeSave save

theorem Coloured.handleCreateGroup (h : a.Coloured) (draw : Draw) (body : Option Json)
    (save : Bool) : (a.handleCreateGroup k draw body save).1.Coloured := by
  unfold App.handleCreateGroup
  split
  · exact h
  · split
    · exact h
    · next g hg =>
      have hlog : (a.log (builtStores g)).Coloured := h
      have hadd := hlog.addGroup (k := k) (normalColor_of_groupFromReq hg)
      split
      · next b e hb => exact hadd.of_eq hb
      · next b hb => exact (hadd.of_eq hb).maybeSave save

theorem Coloured.replaceGroup (h : a.Coloured) (i : Nat) {l : Live κ} (hl : NormalColor l.group)
    (wasEnabled save : Bool) : (a.replaceGroup k i l wasEnabled save).1.Coloured := by
  have hmod : ∀ l' : Live κ, l'.group = l.group → (a.modify i fun _ => l').republish.Coloured :=
    fun l' hg => h.modify i (hg ▸ hl)
  unfold App.replaceGroup
  split_ifs
  · split
    · next l' e he => exact hmod l' (by rw [← Live.group_start k l, he])
    · next l' he => exact (hmod l' (by rw [← Live.group_start k l, he])).maybeSave save
  · exact (hmod l rfl).maybeSave save

theorem Coloured.handlePutGroup (h : a.Coloured) (draw : Draw) (groupID : Bytes)
    (body : Option Json) (save : Bool) : (a.handlePutGroup k draw groupID body save).1.Coloured := by
  unfold App.handlePutGroup
  split
  · exact h
  · next i l hres =>
    have hdis : ∀ l' e, l.disable k = (l', e) → (a.modify i fun _ => l').Coloured := by
      intro l' e he
      have hg : l'.group = l.group := by rw [← Live.group_disable k l, he]
      exact h.modify i (hg ▸ h.get (resolveGroup_ok hres))
    split
    · exact h
    · split
      · next l' e he => exact hdis l' _ he
      · next l' he =>
        dsimp only
        split
        · exact hdis l' _ he
        · next built hb =>
          have hlog : ((a.modify i fun _ => l').log (builtStores built)).Coloured := hdis l' _ he
          have hnormal : NormalColor built := normalColor_of_groupFromReq hb
          refine hlog.replaceGroup i ?_ _ save
          exact hnormal

theorem Coloured.handleDeleteGroup (h : a.Coloured) (groupID : Bytes) (save : Bool) :
    (a.handleDeleteGroup k groupID save).1.Coloured := by
  unfold App.handleDeleteGroup
  split
  · exact h
  · next i l hres =>
    split
    · next l' e he =>
      have hg : l'.group = l.group := by rw [← Live.group_disable k l, he]
      exact h.modify i (hg ▸ h.get (resolveGroup_ok hres))
    · exact Coloured.maybeSave (a := a.removeGroupByIndex i) (h.eraseGroup i) save

theorem Coloured.syncAfterEdit (h : a.Coloured) (i : Nat) {l : Live κ} (hl : NormalColor l.group)
    (save : Bool) (body : Option Json) : (a.syncAfterEdit k i l save body).1.Coloured := by
  have hmod : ∀ l' e, l.sync k = (l', e) → (a.modify i fun _ => l').republish.Coloured := by
    intro l' e he
    have hg : l'.group = l.group := by rw [← Live.group_sync k l, he]
    exact h.modify i (hg ▸ hl)
  unfold App.syncAfterEdit
  split
  · next l' e he => exact hmod l' _ he
  · next l' he => exact (hmod l' _ he).maybeSave save

theorem Coloured.handlePutRules (h : a.Coloured) (draw : Draw) (groupID : Bytes)
    (body : Option Json) (save : Bool) : (a.handlePutRules k draw groupID body save).1.Coloured := by
  unfold App.handlePutRules
  split
  · exact h
  · next i l hres =>
    split
    · exact h
    · split
      · exact h
      · split
        · exact h
        · exact h
        · have hl := h.get (resolveGroup_ok hres)
          refine h.syncAfterEdit i ?_ save _
          exact hl

theorem Coloured.handleCreateRule (h : a.Coloured) (draw : Draw) (groupID : Bytes)
    (body : Option Json) (save : Bool) :
    (a.handleCreateRule k draw groupID body save).1.Coloured := by
  unfold App.handleCreateRule
  split
  · exact h
  · next i l hres =>
    split
    · exact h
    · have hlog : (a.log [l.group.rules.store]).Coloured := h
      have hl := h.get (resolveGroup_ok hres)
      refine hlog.syncAfterEdit i ?_ save _
      exact hl

theorem Coloured.handlePutRule (h : a.Coloured) (groupID ruleID : Bytes) (body : Option Json)
    (save : Bool) : (a.handlePutRule k groupID ruleID body save).1.Coloured := by
  unfold App.handlePutRule
  split
  · exact h
  · next i l hres =>
    split
    · exact h
    · split
      · exact h
      · have hl := h.get (resolveGroup_ok hres)
        refine h.syncAfterEdit i ?_ save _
        exact hl

theorem Coloured.handleDeleteRule (h : a.Coloured) (groupID ruleID : Bytes) (save : Bool) :
    (a.handleDeleteRule k groupID ruleID save).1.Coloured := by
  unfold App.handleDeleteRule
  split
  · exact h
  · next i l hres =>
    split
    · exact h
    · have hl := h.get (resolveGroup_ok hres)
      refine h.syncAfterEdit i ?_ save _
      exact hl

theorem Coloured.handle (h : a.Coloured) (draw : Draw) (req : Request) :
    (a.handle k draw req).1.Coloured := by
  cases req with
  | putGroups body save => exact h.handlePutGroups draw body save
  | createGroup body save => exact h.handleCreateGroup draw body save
  | putGroup groupID body save => exact h.handlePutGroup draw groupID body save
  | deleteGroup groupID save => exact h.handleDeleteGroup groupID save
  | putRules groupID body save => exact h.handlePutRules draw groupID body save
  | createRule groupID body save => exact h.handleCreateRule draw groupID body save
  | putRule groupID ruleID body save => exact h.handlePutRule groupID ruleID body save
  | deleteRule groupID ruleID save => exact h.handleDeleteRule groupID ruleID save
  | getGroups withRules => exact h
  | getGroup groupID withRules => exact h
  | getRules groupID => exact h
  | getRule groupID ruleID => exact h

/-! ## Subscriptions, start and reload -/

@[simp] theorem groups_rebuild (a : App κ) (fail : Option (Nat × Err)) :
    (a.rebuildSubscriptionRulesets fail).1.groups = a.groups := by
  unfold rebuildSubscriptionRulesets
  split
  · rfl
  · rfl

theorem Coloured.rebuild (h : a.Coloured) (fail : Option (Nat × Err)) :
    (a.rebuildSubscriptionRulesets fail).1.Coloured := by
  refine h.congr ?_
  rw [configGroups, groups_rebuild]
  rfl

theorem Coloured.replaceSubscriptions (h : a.Coloured) (subs : List Subscription)
    (fail fail' : Option (Nat × Err)) : (a.replaceSubscriptions subs fail fail').1.Coloured := by
  have hnew : Coloured { a with subscriptions := .exact subs } := h
  have hreb := hnew.rebuild fail
  unfold App.replaceSubscriptions
  split
  · next b hb =>
    have hb' : b.Coloured := hreb.of_eq hb
    exact hb'
  · next b e hb =>
    have hb' : b.Coloured := hreb.of_eq hb
    exact Coloured.rebuild (a := { b with subscriptions := a.subscriptions }) hb' fail'

theorem Coloured.handlePutSubscriptions (h : a.Coloured) (draw : SubDraw) (body : Option Json)
    (save : Bool) (fail fail' : Option (Nat × Err)) :
    (a.handlePutSubscriptions draw body save fail fail').1.Coloured := by
  unfold App.handlePutSubscriptions
  split
  · exact h
  · split
    · exact h
    · split
      · exact h
      · next built _ =>
        have hlog : (a.log (built.flatMap builtSubStores)).Coloured := h
        have hrep := hlog.replaceSubscriptions ((ensureUniqueSubscriptionIds draw.fresh built).map
          (ensureUniqueSubscriptionRuleIds draw.fresh)) fail fail'
        dsimp only
        split
        · next b e hb => exact hrep.of_eq hb
        · next b hb => exact (hrep.of_eq hb).maybeSave save

theorem Coloured.addSubscription (h : a.Coloured) (s : Subscription)
    (fail fail' : Option (Nat × Err)) : (a.addSubscription s fail fail').1.Coloured := by
  have hpush : (a.pushSubscription s).Coloured := h
  have hreb := hpush.rebuild fail
  unfold App.addSubscription
  split_ifs
  · exact h
  · split
    · next b hb =>
      have hb' : b.Coloured := hreb.of_eq hb
      exact hb'
    · next b e hb =>
      have hb' : b.Coloured := hreb.of_eq hb
      exact Coloured.rebuild (a := { b with
        subscriptions := b.subscriptions.eraseIdx a.subscriptions.items.length }) hb' fail'

theorem Coloured.handleCreateSubscription (h : a.Coloured) (draw : SubDraw) (body : Option Json)
    (save : Bool) (fail fail' : Option (Nat × Err)) :
    (a.handleCreateSubscription draw body save fail fail').1.Coloured := by
  unfold App.handleCreateSubscription
  split
  · exact h
  · split_ifs
    · exact h
    · split
      · exact h
      · next s _ =>
        have hlog : (a.log (builtSubStores s)).Coloured := h
        have hadd := hlog.addSubscription (ensureUniqueSubscriptionRuleIds draw.fresh s) fail fail'
        split
        · next b hb => exact hadd.of_eq hb
        · next b e _ hb => exact hadd.of_eq hb
        · next b hb => exact (hadd.of_eq hb).maybeSave save

theorem Coloured.removeSubscriptionById (h : a.Coloured) (id : Id)
    (fail fail' : Option (Nat × Err)) : (a.removeSubscriptionById id fail fail').1.Coloured := by
  unfold App.removeSubscriptionById
  split
  · exact h
  · next i _ =>
    have hdel : Coloured { a with subscriptions := a.subscriptions.eraseIdx i } := h
    have hreb := hdel.rebuild fail
    split
    · next b hb =>
      have hb' : b.Coloured := hreb.of_eq hb
      exact hb'
    · next b e hb =>
      have hb' : b.Coloured := hreb.of_eq hb
      refine Coloured.rebuild ?_ fail'
      cases a.subscriptions.items[i]? with
      | none => exact hb'
      | some s => exact hb'

theorem Coloured.handleDeleteSubscription (h : a.Coloured) (subscriptionID : Bytes) (save : Bool)
    (fail fail' : Option (Nat × Err)) :
    (a.handleDeleteSubscription subscriptionID save fail fail').1.Coloured := by
  unfold App.handleDeleteSubscription
  split
  · exact h
  · next id _ =>
    have hrem := h.removeSubscriptionById id fail fail'
    split
    · next b _ e hb => exact hrem.of_eq hb
    · next b hb => exact hrem.of_eq hb
    · next b hb => exact (hrem.of_eq hb).maybeSave save

theorem Coloured.modifySub (h : a.Coloured) (i : Nat) (f : Subscription → Subscription) :
    (a.modifySub i f).Coloured := h

theorem Coloured.syncSubscriptionById (h : a.Coloured) (fetch : Fetch) (id : Id) (now : Nat)
    (url : Option Bytes) (fail fail' : Option (Nat × Err)) :
    (a.syncSubscriptionById fetch id now url fail fail').1.Coloured := by
  unfold App.syncSubscriptionById
  split
  · exact h
  · next i _ =>
    split
    · exact h
    · dsimp only
      split_ifs
      · exact h
      · split
        · exact h
        · exact h.modifySub _ _
        · split
          · next b hb =>
            have hb' : b.Coloured := ((h.modifySub i _).rebuild fail).of_eq hb
            exact hb'
          · next b e hb =>
            have hb' : b.Coloured := ((h.modifySub i _).rebuild fail).of_eq hb
            exact (hb'.modifySub i _).rebuild fail'

theorem Coloured.handleSyncSubscription (h : a.Coloured) (fetch : Fetch) (subscriptionID : Bytes)
    (body : Option (Option Json)) (now : Nat) (save : Bool) (fail fail' : Option (Nat × Err)) :
    (a.handleSyncSubscription fetch subscriptionID body now save fail fail').1.Coloured := by
  unfold App.handleSyncSubscription
  split
  · exact h
  · next id _ =>
    split
    · exact h
    · have hsync := h.syncSubscriptionById fetch id now
        (body.join.map fun j => j.getString "url") fail fail'
      dsimp only
      split
      · next b hb => exact hsync.of_eq hb
      · next b hb => exact hsync.of_eq hb
      · next b hb => exact hsync.of_eq hb
      · next b e _ _ _ hb => exact hsync.of_eq hb
      · next b changed hb => exact (hsync.of_eq hb).maybeSave _

theorem Coloured.applyPlans (plans : List SubPlan) (now : Nat) {a : App κ} (h : a.Coloured) :
    (a.applyPlans now plans).1.Coloured := by
  induction plans generalizing a with
  | nil => exact h
  | cons p ps ih =>
    unfold App.applyPlans
    split
    · exact ih h
    · exact ih (h.modifySub _ _)

theorem Coloured.syncDueSubscriptions (h : a.Coloured) (fetch : Fetch) (now : Nat)
    (fail fail' : Option (Nat × Err)) :
    (a.syncDueSubscriptions fetch now fail fail').1.Coloured := by
  have happly := h.applyPlans (a.duePlans fetch now) now
  unfold App.syncDueSubscriptions
  dsimp only
  split_ifs
  · split
    · next b hb =>
      have hb' : b.Coloured := (happly.rebuild fail).of_eq hb
      exact hb'
    · next b e hb =>
      have hb' : b.Coloured := (happly.rebuild fail).of_eq hb
      have hroll : ∀ (old : List (Nat × Subscription)) (c : App κ), c.Coloured →
          (old.foldl (fun c o => c.modifySub o.1 fun _ => o.2) c).Coloured := by
        intro old
        induction old with
        | nil => exact fun c hc => hc
        | cons o old ih => exact fun c hc => ih _ (hc.modifySub o.1 _)
      exact (hroll _ b hb').rebuild fail'
  · exact happly

theorem Coloured.setRunning (h : a.Coloured) : (a.setRunning k).Coloured := by
  refine h.congr ?_
  unfold configGroups App.setRunning CArray.mapItems
  rw [List.map_map]
  exact List.map_congr_left fun l _ => Live.group_start k l

theorem Coloured.reloadConfig (h : a.Coloured) (doc : Option Doc)
    (fail fail' : Option (Nat × Err)) : (a.reloadConfig k doc fail fail').Coloured := by
  unfold App.reloadConfig
  split
  · exact h
  · next doc =>
    split
    · exact h
    · next st cfg hload =>
      have hcfg : ∀ g ∈ cfg.groups.items, NormalColor g := loadBuffer_normal (by rw [hload])
      have hlog : (a.log st).Coloured := h
      have hgroups : (if cfg.groupsPresent then
          ((a.log st).clearGroups.addGroups k cfg.groups.items).1 else a.log st).Coloured := by
        split_ifs
        · exact (coloured_clearGroups _).addGroups hcfg
        · exact hlog
      dsimp only
      generalize (if cfg.groupsPresent = true then
        ((a.log st).clearGroups.addGroups k cfg.groups.items).1 else a.log st) = b at hgroups
      split_ifs
      · exact hgroups.replaceSubscriptions _ fail fail'
      · exact hgroups

theorem coloured_create {cfg : Config} (h : ∀ g ∈ cfg.groups.items, NormalColor g)
    (st : List Store) : (create cfg st : App κ).Coloured := by
  refine Coloured.rebuild (fun g hg => ?_) none
  obtain ⟨l, hl, rfl⟩ := List.mem_map.mp hg
  obtain ⟨g, hmem, rfl⟩ := List.mem_map.mp hl
  exact h g hmem

theorem Coloured.step (h : a.Coloured) (op : Op κ) : (a.step op).Coloured := by
  cases op with
  | request k draw req => exact h.handle draw req
  | putSubscriptions draw body save fail fail' =>
    exact h.handlePutSubscriptions draw body save fail fail'
  | createSubscription draw body save fail fail' =>
    exact h.handleCreateSubscription draw body save fail fail'
  | deleteSubscription id save fail fail' => exact h.handleDeleteSubscription id save fail fail'
  | syncSubscription fetch id body now save fail fail' =>
    exact h.handleSyncSubscription fetch id body now save fail fail'
  | syncDue fetch now fail fail' => exact h.syncDueSubscriptions fetch now fail fail'
  | setRunning k => exact h.setRunning
  | reload k doc fail fail' => exact h.reloadConfig doc fail fail'

end App

/-- The daemon after it has loaded its configuration, if there is a file, and performed the
operations; `none` if the file does not load. -/
def daemon (doc : Option Doc) (ops : List (Op κ)) : Option (App κ) :=
  match doc.elim ([], .ok initDefaults) (loadBuffer initDefaults) with
  | (_, .error _) => none
  | (st, .ok cfg) => some (ops.foldl App.step (App.create cfg st))

theorem daemon_coloured {doc : Option Doc} {ops : List (Op κ)} {a : App κ}
    (h : daemon doc ops = some a) : a.Coloured := by
  unfold daemon at h
  split at h
  · cases h
  · next st cfg hload =>
    cases h
    have hcfg : ∀ g ∈ cfg.groups.items, NormalColor g := by
      cases doc with
      | none =>
        cases hload
        exact fun g hg => absurd hg List.not_mem_nil
      | some doc => exact loadBuffer_normal (by rw [show loadBuffer initDefaults doc = _ from hload])
    have hrun : ∀ (ops : List (Op κ)) (b : App κ), b.Coloured → (ops.foldl App.step b).Coloured := by
      intro ops
      induction ops with
      | nil => exact fun b hb => hb
      | cons op ops ih => exact fun b hb => ih _ (hb.step op)
    exact hrun ops _ (App.coloured_create hcfg st)

end Api

end MagiTrickle
