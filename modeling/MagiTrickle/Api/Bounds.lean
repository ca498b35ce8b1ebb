import MagiTrickle.Api.Subscriptions
import MagiTrickle.Lib.Runs

/-!
# Appends and their blocks

The array of groups is only ever grown one element at a time, so its block
always has room. The rules of a group and the array of subscriptions are also
installed by handlers that allocate exactly as many elements as they hold
(`handle_put_rules`, `mt_app_replace_subscriptions`). `grow_array` takes such a
block for one of eight elements, or of a power of two. `InBounds` says that
all arrays fit their blocks and that every append so far was made inside its
block. The operations keep it as long as no request appends to an array that
is stuck (`step_inBounds`).
-/

namespace MagiTrickle.Api

open MagiTrickle.Config

variable {κ : Type}

namespace App

/-- The elements of every array lie in its block, and so did every element appended. -/
structure InBounds (a : App κ) : Prop where
  groups : a.groups.Grown
  rules : ∀ l ∈ a.groups.items, l.group.rules.Fits
  subscriptions : a.subscriptions.Fits
  stores : ∀ s ∈ a.stores, s.InBounds

variable {a b : App κ} {k : Kernel κ}

theorem InBounds.of_eq {β : Type} {r : App κ × β} {x : β} (h : r.1.InBounds) (hr : r = (b, x)) :
    b.InBounds := by
  rwa [hr] at h

theorem InBounds.log (h : a.InBounds) {x : List Store} (hx : ∀ s ∈ x, s.InBounds) :
    (a.log x).InBounds where
  groups := h.groups
  rules := h.rules
  subscriptions := h.subscriptions
  stores := fun s hs => (List.mem_append.mp hs).elim (h.stores s) (hx s)

theorem inBounds_runtimeStores (subs : List Subscription) :
    ∀ s ∈ runtimeStores subs, s.InBounds := by
  intro s hs
  obtain ⟨sub, -, hs⟩ := List.mem_flatMap.mp hs
  exact inBounds_stores_empty _ s hs

theorem InBounds.republish (h : a.InBounds) : a.republish.InBounds :=
  h.log (inBounds_runtimeStores _)

theorem InBounds.maybeSave (h : a.InBounds) (save : Bool) : (a.maybeSave save).InBounds := by
  unfold App.maybeSave
  split_ifs
  · exact ⟨h.groups, h.rules, h.subscriptions, h.stores⟩
  · exact h

/-! ## Groups -/

theorem InBounds.modify (h : a.InBounds) (i : Nat) {l : Live κ} (hl : l.group.rules.Fits) :
    (a.modify i fun _ => l).InBounds where
  groups := h.groups.of_le rfl (by simp [App.modify, CArray.mapItems])
  rules := by
    intro l' hl'
    obtain ⟨j, hj, rfl⟩ := List.mem_iff_getElem.mp hl'
    simp only [App.modify, CArray.mapItems, List.getElem_modify]
    split_ifs
    · exact hl
    · exact h.rules _ (List.getElem_mem _)
  subscriptions := h.subscriptions
  stores := h.stores

theorem InBounds.pushGroup (h : a.InBounds) {l : Live κ} (hl : l.group.rules.Fits) :
    (a.pushGroup l).InBounds where
  groups := h.groups.push l
  rules := fun l' hl' => by
    rcases List.mem_append.mp hl' with hl' | hl'
    · exact h.rules l' hl'
    · rwa [List.mem_singleton.mp hl']
  subscriptions := h.subscriptions
  stores := (h.log fun s hs => by
    rw [List.mem_singleton.mp hs]
    exact h.groups.inBounds_store).stores

theorem InBounds.eraseGroup (h : a.InBounds) (i : Nat) :
    InBounds { a with groups := a.groups.eraseIdx i } where
  groups := h.groups.of_le rfl (List.length_eraseIdx_le ..)
  rules := fun l hl => h.rules l (List.mem_of_mem_eraseIdx hl)
  subscriptions := h.subscriptions
  stores := h.stores

theorem InBounds.clearGroups (h : a.InBounds) : a.clearGroups.InBounds := by
  refine InBounds.republish ⟨CArray.grown_empty, ?_, h.subscriptions, h.stores⟩
  exact fun l hl => absurd hl List.not_mem_nil

theorem InBounds.mapLive (h : a.InBounds) {f : Live κ → Live κ} (hf : ∀ l, (f l).group = l.group) :
    InBounds { a with groups := a.groups.mapItems fun ls => ls.map f } where
  groups := h.groups.of_le rfl (by simp [CArray.mapItems])
  rules := by
    intro l hl
    obtain ⟨l', hl', rfl⟩ := List.mem_map.mp hl
    rw [hf]
    exact h.rules l' hl'
  subscriptions := h.subscriptions
  stores := h.stores

theorem InBounds.addGroup (h : a.InBounds) {g : Group} (hg : g.rules.Fits) :
    (a.addGroup k g).1.InBounds := by
  have hstart : ∀ l e, (Live.new g).start k = (l, e) → l.group.rules.Fits := by
    intro l e hl
    have hgroup : l.group = g := by rw [← show ((Live.new g).start k).1 = l from by rw [hl],
      Live.group_start, Live.new]
    rwa [hgroup]
  unfold App.addGroup
  split_ifs
  · exact h
  · exact h
  · split
    · next l hl => exact (h.pushGroup (hstart l none hl)).republish
    · next l e hl => exact (h.pushGroup (hstart l (some e) hl)).eraseGroup _
  · exact (h.pushGroup hg).republish

theorem InBounds.addGroups {gs : List Group} (hgs : ∀ g ∈ gs, g.rules.Fits) {a : App κ}
    (h : a.InBounds) : (a.addGroups k gs).1.InBounds := by
  induction gs generalizing a with
  | nil => exact h
  | cons g gs ih =>
    have hadd := h.addGroup (k := k) (hgs g List.mem_cons_self)
    unfold App.addGroups
    split
    · next b e hb => exact hadd.of_eq hb
    · next b hb =>
      rw [hb] at hadd
      exact ih (fun g hg => hgs g (List.mem_cons_of_mem _ hg)) hadd

theorem grown_groupFromReq {req : Json} {existing : Option Group} {drawGroup : Id}
    {drawRule : Nat → Id} {g : Group}
    (h : groupFromReq req existing drawGroup drawRule = .ok g) : g.rules.Grown := by
  obtain ⟨rules, -, hr⟩ := rules_of_groupFromReq h
  rw [hr]
  exact CArray.grown_empty.pushAll rules

theorem inBounds_builtStores (gs : List Group) : ∀ s ∈ gs.flatMap builtStores, s.InBounds := by
  intro s hs
  obtain ⟨g, -, hs⟩ := List.mem_flatMap.mp hs
  exact inBounds_stores_empty _ s hs

/-! ## Group and rule requests -/

theorem InBounds.handlePutGroups (h : a.InBounds) (draw : Draw) (body : Option Json)
    (save : Bool) : (a.handlePutGroups k draw body save).1.InBounds := by
  unfold App.handlePutGroups
  split
  · exact h
  · split
    · exact h
    · next reqs _ =>
      have hdis : (a.disableAll k).InBounds := h.mapLive fun l => Live.group_disable k l
      have hbuilt := forall_buildGroups (a := a.disableAll k) (d := draw)
        (fun _ _ _ hg => (grown_groupFromReq hg).fits) reqs 0
      have hlog := fun gs => hdis.log (inBounds_builtStores gs)
      simp only
      split
      · next built msg _ => exact hlog built
      · next built hb =>
        rw [hb] at hbuilt
        have hadd := (hlog built).clearGroups.addGroups (k := k) hbuilt
        split
        · next b e hb' => exact hadd.of_eq hb'
        · next b hb' => exact (hadd.of_eq hb').maybeSave save

theorem InBounds.handleCreateGroup (h : a.InBounds) (draw : Draw) (body : Option Json)
    (save : Bool) : (a.handleCreateGroup k draw body save).1.InBounds := by
  unfold App.handleCreateGroup
  split
  · exact h
  · split
    · exact h
    · next g hg =>
      have hlog := h.log (x := builtStores g) (inBounds_stores_empty _)
      have hadd := hlog.addGroup (k := k) (grown_groupFromReq hg).fits
      split
      · next b e hb => exact hadd.of_eq hb
      · next b hb => exact (hadd.of_eq hb).maybeSave save

theorem InBounds.replaceGroup (h : a.InBounds) (i : Nat) {l : Live κ} (hl : l.group.rules.Fits)
    (wasEnabled save : Bool) : (a.replaceGroup k i l wasEnabled save).1.InBounds := by
  unfold App.replaceGroup
  split_ifs
  · have hstart : (l.start k).1.group.rules.Fits := by rwa [Live.group_start]
    split
    · next l' e hl' =>
      rw [hl'] at hstart
      exact (h.modify i hstart).republish
    · next l' hl' =>
      rw [hl'] at hstart
      exact (h.modify i hstart).republish.maybeSave save
  · exact (h.modify i hl).republish.maybeSave save

theorem InBounds.handlePutGroup (h : a.InBounds) (draw : Draw) (groupID : Bytes)
    (body : Option Json) (save : Bool) :
    (a.handlePutGroup k draw groupID body save).1.InBounds := by
  unfold App.handlePutGroup
  split
  · exact h
  · next i l hl =>
    have hdis : (l.disable k).1.group.rules.Fits := by
      rw [Live.group_disable]
      exact h.rules l (List.mem_of_getElem? (resolveGroup_ok hl))
    split
    · exact h
    · split
      · next l' e hl' =>
        rw [hl'] at hdis
        exact h.modify i hdis
      · next l' hl' =>
        rw [hl'] at hdis
        simp only
        split
        · exact h.modify i hdis
        · next g hg =>
          have hlog := (h.modify i hdis).log (x := builtStores g) (inBounds_stores_empty _)
          exact hlog.replaceGroup i (grown_groupFromReq hg).fits _ save

theorem InBounds.handleDeleteGroup (h : a.InBounds) (groupID : Bytes) (save : Bool) :
    (a.handleDeleteGroup k groupID save).1.InBounds := by
  unfold App.handleDeleteGroup
  split
  · exact h
  · next i l hl =>
    split
    · next l' e hl' =>
      have hdis : (l.disable k).1.group.rules.Fits := by
        rw [Live.group_disable]
        exact h.rules l (List.mem_of_getElem? (resolveGroup_ok hl))
      rw [hl'] at hdis
      exact h.modify i hdis
    · exact ((h.eraseGroup i).republish).maybeSave save

theorem InBounds.syncAfterEdit (h : a.InBounds) (i : Nat) {l : Live κ} (hl : l.group.rules.Fits)
    (save : Bool) (body : Option Json) : (a.syncAfterEdit k i l save body).1.InBounds := by
  have hsync : (l.sync k).1.group.rules.Fits := by rwa [Live.group_sync]
  unfold App.syncAfterEdit
  split
  · next l' e hl' =>
    rw [hl'] at hsync
    exact (h.modify i hsync).republish
  · next l' hl' =>
    rw [hl'] at hsync
    exact (h.modify i hsync).republish.maybeSave save

theorem InBounds.handlePutRules (h : a.InBounds) (draw : Draw) (groupID : Bytes)
    (body : Option Json) (save : Bool) :
    (a.handlePutRules k draw groupID body save).1.InBounds := by
  unfold App.handlePutRules
  split
  · exact h
  · split
    · exact h
    · split
      · exact h
      · split
        · exact h
        · exact h
        · next rules _ => exact h.syncAfterEdit _ (CArray.fits_exact rules) save _

theorem InBounds.handleCreateRule (h : a.InBounds) (draw : Draw) (groupID : Bytes)
    (body : Option Json) (save : Bool)
    (hs : ∀ i l, a.resolveGroup groupID = .ok (i, l) → body.isSome → ¬ l.group.rules.Stuck) :
    (a.handleCreateRule k draw groupID body save).1.InBounds := by
  unfold App.handleCreateRule
  split
  · exact h
  · next i l hl =>
    split
    · exact h
    · have hfits := h.rules l (List.mem_of_getElem? (resolveGroup_ok hl))
      have hns := hs i l hl rfl
      have hlog := h.log (x := [l.group.rules.store]) fun s hs => by
        rw [List.mem_singleton.mp hs]
        exact (CArray.inBounds_store_iff hfits).mpr hns
      exact hlog.syncAfterEdit i (hfits.push hns _) save _

theorem InBounds.handlePutRule (h : a.InBounds) (groupID ruleID : Bytes) (body : Option Json)
    (save : Bool) : (a.handlePutRule k groupID ruleID body save).1.InBounds := by
  unfold App.handlePutRule
  split
  · exact h
  · next i l hl =>
    split
    · exact h
    · split
      · exact h
      · have hfits := h.rules l (List.mem_of_getElem? (resolveGroup_ok hl))
        refine h.syncAfterEdit i ?_ save _
        exact hfits.of_le rfl (by simp [CArray.mapItems])

theorem InBounds.handleDeleteRule (h : a.InBounds) (groupID ruleID : Bytes) (save : Bool) :
    (a.handleDeleteRule k groupID ruleID save).1.InBounds := by
  unfold App.handleDeleteRule
  split
  · exact h
  · next i l hl =>
    split
    · exact h
    · have hfits := h.rules l (List.mem_of_getElem? (resolveGroup_ok hl))
      refine h.syncAfterEdit i ?_ save _
      exact hfits.of_le rfl (List.length_eraseIdx_le ..)

/-! ## Subscriptions, synchronisation, reload -/

theorem InBounds.rebuild (h : a.InBounds) (fail : Option (Nat × Err)) :
    (a.rebuildSubscriptionRulesets fail).1.InBounds := by
  unfold App.rebuildSubscriptionRulesets
  split
  · exact h.log (inBounds_runtimeStores _)
  · exact h.log (inBounds_runtimeStores _)

theorem InBounds.withSubscriptions (h : a.InBounds) {subs : CArray Subscription}
    (hs : subs.Fits) : InBounds { a with subscriptions := subs } :=
  ⟨h.groups, h.rules, hs, h.stores⟩

theorem InBounds.pushSubscription (h : a.InBounds) (hs : ¬ a.subscriptions.Stuck)
    (s : Subscription) : (a.pushSubscription s).InBounds := by
  have hlog := h.log (x := [a.subscriptions.store]) fun s hs' => by
    rw [List.mem_singleton.mp hs']
    exact (CArray.inBounds_store_iff h.subscriptions).mpr hs
  exact hlog.withSubscriptions (h.subscriptions.push hs s)

theorem InBounds.addSubscription (h : a.InBounds) (s : Subscription)
    (fail fail' : Option (Nat × Err))
    (hs : ¬ a.subscriptions.items.any (fun s' => s'.id = s.id) → ¬ a.subscriptions.Stuck) :
    (a.addSubscription s fail fail').1.InBounds := by
  unfold App.addSubscription
  split_ifs with hdup
  · exact h
  · have hpush := (h.pushSubscription (hs hdup) s).rebuild fail
    split
    · next b hb => exact (hpush.of_eq hb).republish
    · next b e hb =>
      rw [hb] at hpush
      have hfits : (b.subscriptions.eraseIdx a.subscriptions.items.length).Fits :=
        hpush.subscriptions.of_le rfl (List.length_eraseIdx_le ..)
      exact (hpush.withSubscriptions hfits).rebuild fail'

theorem InBounds.replaceSubscriptions (h : a.InBounds) (subs : List Subscription)
    (fail fail' : Option (Nat × Err)) : (a.replaceSubscriptions subs fail fail').1.InBounds := by
  have hnew := (h.withSubscriptions (CArray.fits_exact subs)).rebuild fail
  unfold App.replaceSubscriptions
  split
  · next b hb => exact (hnew.of_eq hb).republish
  · next b e hb =>
    rw [hb] at hnew
    exact (hnew.withSubscriptions h.subscriptions).rebuild fail'

@[simp] theorem subscriptions_rebuild (a : App κ) (fail : Option (Nat × Err)) :
    (a.rebuildSubscriptionRulesets fail).1.subscriptions = a.subscriptions := by
  unfold App.rebuildSubscriptionRulesets
  split <;> rfl

theorem not_stuck_eraseIdx {α : Type} {c : CArray α} (h : c.Fits) {i : Nat}
    (hi : i < c.items.length) : ¬ (c.eraseIdx i).Stuck := by
  rintro ⟨hfull, -⟩
  unfold CArray.Fits at h
  have hfull : c.alloc = some (c.items.eraseIdx i).length := hfull
  rw [hfull, List.length_eraseIdx_of_lt hi] at h
  have h : c.items.length ≤ c.items.length - 1 := h
  omega

theorem InBounds.removeSubscriptionById (h : a.InBounds) (id : Id)
    (fail fail' : Option (Nat × Err)) : (a.removeSubscriptionById id fail fail').1.InBounds := by
  unfold App.removeSubscriptionById
  split
  · exact h
  · next i hi =>
    have hlt : i < a.subscriptions.items.length := (List.findIdx?_eq_some_iff_findIdx_eq.mp hi).1
    have hfits : (a.subscriptions.eraseIdx i).Fits :=
      h.subscriptions.of_le rfl (List.length_eraseIdx_le ..)
    have hdel := (h.withSubscriptions hfits).rebuild fail
    have hsubs := subscriptions_rebuild
      { a with subscriptions := a.subscriptions.eraseIdx i } fail
    split
    · next b hb => exact (hdel.of_eq hb).republish
    · next b e hb =>
      rw [hb] at hdel hsubs
      rw [List.getElem?_eq_getElem hlt]
      have hns : ¬ b.subscriptions.Stuck := by
        rw [show b.subscriptions = a.subscriptions.eraseIdx i from hsubs]
        exact not_stuck_eraseIdx h.subscriptions hlt
      have hpush := hdel.pushSubscription hns a.subscriptions.items[i]
      refine (hpush.withSubscriptions ?_).rebuild fail'
      refine hpush.subscriptions.of_le rfl ?_
      show ((b.subscriptions.items ++ [_]).dropLast.insertIdx i _).length ≤
        (b.subscriptions.items ++ [_]).length
      rw [List.dropLast_concat, List.length_append, List.length_singleton]
      exact List.length_insertIdx_le_succ ..

theorem InBounds.modifySub (h : a.InBounds) (i : Nat) (f : Subscription → Subscription) :
    (a.modifySub i f).InBounds :=
  h.withSubscriptions (h.subscriptions.of_le rfl (by simp [CArray.mapItems]))

theorem inBounds_builtSubStores (ss : List Subscription) :
    ∀ s ∈ ss.flatMap builtSubStores, s.InBounds := by
  intro s hs
  obtain ⟨sub, -, hs⟩ := List.mem_flatMap.mp hs
  exact inBounds_stores_empty _ s hs

theorem InBounds.handlePutSubscriptions (h : a.InBounds) (draw : SubDraw) (body : Option Json)
    (save : Bool) (fail fail' : Option (Nat × Err)) :
    (a.handlePutSubscriptions draw body save fail fail').1.InBounds := by
  unfold App.handlePutSubscriptions
  split
  · exact h
  · split
    · exact h
    · have hlog := fun ss => h.log (inBounds_builtSubStores ss)
      split
      · next built msg _ => exact hlog built
      · next built _ =>
        have hrep := fun subs => (hlog built).replaceSubscriptions subs fail fail'
        simp only
        split
        · next b e hb => exact (hrep _).of_eq hb
        · next b hb => exact ((hrep _).of_eq hb).maybeSave save

def appendedSubscription (draw : SubDraw) (a : App κ) (body : Option Json) :
    Option Subscription :=
  match body with
  | none => none
  | some json =>
    if json.getString "url" = [] then none
    else
      match subscriptionFromReq json none (draw.group 0) (draw.rule 0) with
      | .error _ => none
      | .ok s => if a.subscriptions.items.any (fun s' => s'.id = s.id) then none else some s

theorem InBounds.handleCreateSubscription (h : a.InBounds) (draw : SubDraw) (body : Option Json)
    (save : Bool) (fail fail' : Option (Nat × Err))
    (hs : (a.appendedSubscription draw body).isSome → ¬ a.subscriptions.Stuck) :
    (a.handleCreateSubscription draw body save fail fail').1.InBounds := by
  unfold App.handleCreateSubscription
  split
  · exact h
  · next json =>
    split_ifs with hurl
    · exact h
    · split
      · exact h
      · next s hsub =>
        have hlog := h.log (x := builtSubStores s) (inBounds_stores_empty _)
        have hadd := hlog.addSubscription (ensureUniqueSubscriptionRuleIds draw.fresh s) fail fail'
          fun hdup => hs (by
            have hdup : ¬ a.subscriptions.items.any (fun s' => s'.id = s.id) := hdup
            simp only [appendedSubscription, hurl, hsub, hdup, ↓reduceIte, Option.isSome_some,
              Bool.false_eq_true])
        split
        · next b hb => exact hadd.of_eq hb
        · next b e _ hb => exact hadd.of_eq hb
        · next b hb => exact (hadd.of_eq hb).maybeSave save

theorem InBounds.handleDeleteSubscription (h : a.InBounds) (subscriptionID : Bytes) (save : Bool)
    (fail fail' : Option (Nat × Err)) :
    (a.handleDeleteSubscription subscriptionID save fail fail').1.InBounds := by
  unfold App.handleDeleteSubscription
  split
  · exact h
  · next id _ =>
    have hrem := h.removeSubscriptionById id fail fail'
    split
    · next b _ e hb => exact hrem.of_eq hb
    · next b hb => exact hrem.of_eq hb
    · next b hb => exact (hrem.of_eq hb).maybeSave save

theorem InBounds.syncSubscriptionById (h : a.InBounds) (fetch : Fetch) (id : Id) (now : Nat)
    (url : Option Bytes) (fail fail' : Option (Nat × Err)) :
    (a.syncSubscriptionById fetch id now url fail fail').1.InBounds := by
  unfold App.syncSubscriptionById
  split
  · exact h
  · next i _ =>
    split
    · exact h
    · simp only
      split_ifs
      · exact h
      · split
        · exact h
        · exact h.modifySub i _
        · have hmod := fun f => (h.modifySub i f).rebuild fail
          split
          · next b hb => exact ((hmod _).of_eq hb).republish
          · next b e hb => exact (((hmod _).of_eq hb).modifySub i _).rebuild fail'

theorem InBounds.handleSyncSubscription (h : a.InBounds) (fetch : Fetch) (subscriptionID : Bytes)
    (body : Option (Option Json)) (now : Nat) (save : Bool) (fail fail' : Option (Nat × Err)) :
    (a.handleSyncSubscription fetch subscriptionID body now save fail fail').1.InBounds := by
  unfold App.handleSyncSubscription
  split
  · exact h
  · next id _ =>
    split
    · exact h
    · have hsync := fun url => h.syncSubscriptionById fetch id now url fail fail'
      simp only
      split
      · next hb => exact (hsync _).of_eq hb
      · next hb => exact (hsync _).of_eq hb
      · next hb => exact (hsync _).of_eq hb
      · next hb => exact (hsync _).of_eq hb
      · next hb => exact ((hsync _).of_eq hb).maybeSave _

theorem InBounds.applyPlans (plans : List SubPlan) (now : Nat) {a : App κ} (h : a.InBounds) :
    (a.applyPlans now plans).1.InBounds := by
  induction plans generalizing a with
  | nil => exact h
  | cons p ps ih =>
    unfold App.applyPlans
    split
    · exact ih h
    · next i _ => exact ih (h.modifySub i _)

theorem InBounds.syncDueSubscriptions (h : a.InBounds) (fetch : Fetch) (now : Nat)
    (fail fail' : Option (Nat × Err)) :
    (a.syncDueSubscriptions fetch now fail fail').1.InBounds := by
  have happly := h.applyPlans (a.duePlans fetch now) now
  unfold App.syncDueSubscriptions
  simp only
  split_ifs
  · have hreb := happly.rebuild fail
    split
    · next b hb => exact (hreb.of_eq hb).republish.maybeSave true
    · next b e hb =>
      rw [hb] at hreb
      have hroll : ∀ (old : List (Nat × Subscription)) (c : App κ), c.InBounds →
          (old.foldl (fun c o => c.modifySub o.1 fun _ => o.2) c).InBounds := by
        intro old
        induction old with
        | nil => exact fun c hc => hc
        | cons o old ih => exact fun c hc => ih _ (hc.modifySub _ _)
      exact ((hroll _ b hreb).rebuild fail').maybeSave true
  · exact happly

theorem inBounds_create {cfg : Config} (h : cfg.Grown) {st : List Store}
    (hst : ∀ s ∈ st, s.InBounds) : (create cfg st : App κ).InBounds := by
  refine InBounds.rebuild ⟨?_, ?_, h.subscriptions.fits, hst⟩ none
  · have hg := h.groups
    unfold CArray.Grown at hg ⊢
    cases ha : cfg.groups.alloc with
    | none =>
      rw [ha] at hg
      rw [hg]
      rfl
    | some m =>
      rw [ha] at hg
      simpa using hg
  · intro l hl
    obtain ⟨g, hg, rfl⟩ := List.mem_map.mp hl
    exact (h.rules g hg).fits

theorem InBounds.reloadConfig (h : a.InBounds) (doc : Option Doc)
    (fail fail' : Option (Nat × Err)) : (a.reloadConfig k doc fail fail').InBounds := by
  unfold App.reloadConfig
  split
  · exact h
  · next doc =>
    obtain ⟨hst, hok⟩ := loadBuffer_grown grown_initDefaults doc
    split
    · next st e hl =>
      rw [hl] at hst
      exact h.log hst
    · next st cfg hl =>
      rw [hl] at hst hok
      have hcfg := hok cfg rfl
      have hgroups : (if cfg.groupsPresent then
          ((a.log st).clearGroups.addGroups k cfg.groups.items).1 else a.log st).InBounds := by
        split_ifs
        · exact (h.log hst).clearGroups.addGroups fun g hg => (hcfg.rules g hg).fits
        · exact h.log hst
      simp only
      split_ifs at hgroups ⊢
      all_goals first
        | exact hgroups.replaceSubscriptions _ fail fail'
        | exact hgroups

/-! ## Runs -/

/-- The request does not append to a stuck array. -/
def NotStuck (a : App κ) : Op κ → Prop
  | .request _ _ (.createRule groupID (some _) _) =>
    match a.resolveGroup groupID with
    | .error _ => True
    | .ok (_, l) => ¬ l.group.rules.Stuck
  | .createSubscription draw body _ _ _ =>
    (a.appendedSubscription draw body).isSome → ¬ a.subscriptions.Stuck
  | _ => True

theorem step_inBounds (op : Op κ) (h : a.InBounds) (hop : a.NotStuck op) :
    (a.step op).InBounds := by
  cases op with
  | request k draw req =>
    cases req with
    | putGroups body save => exact h.handlePutGroups draw body save
    | createGroup body save => exact h.handleCreateGroup draw body save
    | putGroup groupID body save => exact h.handlePutGroup draw groupID body save
    | deleteGroup groupID save => exact h.handleDeleteGroup groupID save
    | putRules groupID body save => exact h.handlePutRules draw groupID body save
    | createRule groupID body save =>
      refine h.handleCreateRule draw groupID body save fun i l hl hb => ?_
      obtain ⟨json, rfl⟩ := Option.isSome_iff_exists.mp hb
      simpa only [NotStuck, hl] using hop
    | putRule groupID ruleID body save => exact h.handlePutRule groupID ruleID body save
    | deleteRule groupID ruleID save => exact h.handleDeleteRule groupID ruleID save
    | getGroups withRules => exact h
    | getGroup groupID withRules => exact h
    | getRules groupID => exact h
    | getRule groupID ruleID => exact h
  | putSubscriptions draw body save fail fail' =>
    exact h.handlePutSubscriptions draw body save fail fail'
  | createSubscription draw body save fail fail' =>
    exact h.handleCreateSubscription draw body save fail fail' hop
  | deleteSubscription id save fail fail' => exact h.handleDeleteSubscription id save fail fail'
  | syncSubscription fetch id body now save fail fail' =>
    exact h.handleSyncSubscription fetch id body now save fail fail'
  | syncDue fetch now fail fail' => exact h.syncDueSubscriptions fetch now fail fail'
  | setRunning k =>
    have hmap := h.mapLive (f := fun l => (l.start k).1) fun l => Live.group_start k l
    exact ⟨hmap.groups, hmap.rules, hmap.subscriptions, hmap.stores⟩
  | reload k doc fail fail' => exact h.reloadConfig doc fail fail'

end App

open Lib.Runs (Guarded)

/-- Whatever file a daemon loads: as long as no request appends to a stuck array, every append is
made inside the block of its array. -/
theorem daemonStores_inBounds (doc : Option Doc) (ops : List (Op κ))
    (h : ∀ st cfg, doc.elim ([], .ok initDefaults) (loadBuffer initDefaults) = (st, .ok cfg) →
      Guarded App.NotStuck App.step (App.create cfg st) ops) :
    ∀ s ∈ daemonStores doc ops, s.InBounds := by
  have hload : ∀ r, doc.elim ([], .ok initDefaults) (loadBuffer initDefaults) = r →
      (∀ s ∈ r.1, s.InBounds) ∧ ∀ cfg, r.2 = .ok cfg → cfg.Grown := by
    rintro r rfl
    cases doc with
    | none =>
      refine ⟨fun s hs => absurd hs List.not_mem_nil, fun cfg hc => ?_⟩
      cases hc
      exact grown_initDefaults
    | some doc => exact loadBuffer_grown grown_initDefaults doc
  unfold daemonStores
  split
  · next st e hl => exact (hload _ hl).1
  · next st cfg hl =>
    obtain ⟨hst, hok⟩ := hload _ hl
    have hrun := (h st cfg hl).inv (fun a op ha hop => App.step_inBounds op ha hop)
      (App.inBounds_create (hok cfg rfl) hst)
    exact hrun.stores

def createGroupThenRule : List (Op Unit) :=
  [.request .willing (.counting 1) (.createGroup (some (.obj [])) false),
    .request .willing (.counting 2) (.createRule (str "01000000") (some (.obj [])) false)]

theorem daemonStores_inBounds_createGroupThenRule :
    (daemonStores none createGroupThenRule).length = 2 ∧
      ∀ s ∈ daemonStores none createGroupThenRule, s.InBounds := by
  refine ⟨by decide, daemonStores_inBounds none createGroupThenRule fun st cfg hl => ?_⟩
  cases hl
  refine ⟨trivial, ?_, trivial⟩
  show ¬ CArray.Stuck _
  decide

def putRulesThenRule : List (Op Unit) :=
  [.request .willing (.counting 1) (.createGroup (some (.obj [])) false),
    .request .willing (.counting 2)
      (.putRules (str "01000000") (some (.obj [(str "rules", .arr [.obj []])])) false),
    .request .willing (.counting 3) (.createRule (str "01000000") (some (.obj [])) false)]

/-- The second rule is stored behind the block of one element. -/
theorem daemonStores_putRulesThenRule :
    ⟨1, 1⟩ ∈ daemonStores none putRulesThenRule ∧ ¬ Store.InBounds ⟨1, 1⟩ := by
  decide

end MagiTrickle.Api
