import MagiTrickle.Netfilter.IpsetToLink
import MagiTrickle.Lib.Runs

/-!
# The route of an enabled link

`Sound` relates what the code remembers to what the kernel holds: a route that
is in the table leads through the interface, which is up, and has the gateway
that is remembered. The converse fails: the kernel drops the route and the
flag stays. `updateIfaceRoute` then does nothing if it finds the gateway it
remembers (`Lost`). It is also misled where its lookup ends at the route it
has put into its own table (`Outdated`), and it does not take a route with a
gateway away when there is no gateway any more (`Overtaken`). In every history
of events without these three the call at link-up leaves the right route
(`linkUp_routed`).
-/

namespace MagiTrickle.Netfilter

def currentGateway (li : LinkInfo) (t : Foreign) : Option Bytes :=
  if li.pointToPoint then none else firstGateway li.ifindex (t.before ++ t.after)

/-- The route that was installed is gone, and the gateway is the one it had. -/
def Lost (li : LinkInfo) (t : Tables) (fs : FamilyState) : Prop :=
  fs.ifaceRoutePresent ∧ t.own = none ∧ fs.gw = currentGateway li t.toForeign

/-- The lookup reports a gateway that the interface does not have: that of the installed route. -/
def Outdated (li : LinkInfo) (t : Tables) : Prop :=
  gatewayFound li t ≠ currentGateway li t.toForeign

/-- A route with a gateway is installed, and the interface is a point-to-point one. -/
def Overtaken (li : LinkInfo) (t : Tables) : Prop :=
  li.pointToPoint ∧ ∃ r ∈ t.own, r.gw ≠ none

/-- A route in the table is the one remembered, through the interface as it is. -/
def Sound (link : Option LinkInfo) (t : Tables) (fs : FamilyState) : Prop :=
  ∀ r ∈ t.own, fs.ifaceRoutePresent ∧ fs.gw = r.gw ∧ t.ready ∧
    ∃ li ∈ link, li.up ∧ li.ifindex = r.oif

/-! ## One update -/

theorem sound_of_own_none {link : Option LinkInfo} {t : Tables} {fs : FamilyState}
    (h : t.own = none) : Sound link t fs := by
  intro r hr
  rw [h] at hr
  cases hr

theorem addIfaceRoute_of_none {li : LinkInfo} {t : Tables} {fs : FamilyState} {gw : Option Bytes}
    (h : t.own = none) :
    Sound (some li) (addIfaceRoute li t fs gw).1.1 (addIfaceRoute li t fs gw).1.2 ∧
      (li.up → t.ready → (addIfaceRoute li t fs gw).1.1.own = some ⟨li.ifindex, gw⟩) := by
  unfold addIfaceRoute routeAddIface
  cases hready : t.ready with
  | false => exact ⟨sound_of_own_none h, fun _ hr => by cases hr⟩
  | true =>
    cases hup : li.up with
    | false => exact ⟨sound_of_own_none h, fun hu => by cases hu⟩
    | true =>
      simp only [h, Bool.not_true, Bool.false_eq_true, ↓reduceIte]
      refine ⟨fun r hr => ?_, fun _ _ => trivial⟩
      cases hr
      exact ⟨rfl, rfl, hready, li, rfl, hup, rfl⟩

/-- Deleting the route that is remembered empties a sound table. -/
theorem own_routeDelIface {link : Option LinkInfo} {li : LinkInfo} {t : Tables} {fs : FamilyState}
    (h : Sound link t fs) (hlink : link = some li) :
    (routeDelIface t li.ifindex fs.gw).own = none := by
  unfold routeDelIface
  cases hown : t.own with
  | none => rfl
  | some r =>
    obtain ⟨-, hgw, -, li', hli', -, hoif⟩ := h r hown
    rw [hlink] at hli'
    cases hli'
    simp [Option.filter, hoif, hgw]

/-- Where no gateway is found, one that is installed is overtaken. -/
theorem own_gw_of_found_none {li : LinkInfo} {t : Tables} {fs : FamilyState}
    (h : Sound (some li) t fs) (ho : ¬ Overtaken li t) (hfound : gatewayFound li t = none) :
    ∀ r ∈ t.own, r.gw = none := by
  intro r hr
  unfold gatewayFound at hfound
  split_ifs at hfound with hp
  · by_contra hgw
    exact ho ⟨hp, r, hr, hgw⟩
  · obtain ⟨-, -, -, li', hli', -, hoif⟩ := h r hr
    cases hli'
    unfold gatewayForIface firstGateway at hfound
    rw [List.findSome?_eq_none_iff] at hfound
    have := hfound r (by simp [Option.mem_def.mp hr])
    rwa [if_pos hoif.symm] at this

/-- An update leaves everything alone, or adds the route that it found to an empty table. -/
theorem updateIfaceRoute_cases {li : LinkInfo} {t : Tables} {fs : FamilyState}
    (h : Sound (some li) t fs) (ho : ¬ Overtaken li t) :
    (fs.ifaceRoutePresent ∧ gatewayFound li t = fs.gw ∧
        updateIfaceRoute li t fs = ((t, fs), none)) ∨
      ∃ t' fs', t'.own = none ∧ t'.toForeign = t.toForeign ∧
        updateIfaceRoute li t fs = addIfaceRoute li t' fs' (gatewayFound li t) := by
  unfold updateIfaceRoute
  simp only
  split_ifs with hp hsame hgw
  · exact .inl ⟨hp, hsame, rfl⟩
  · exact .inr ⟨_, _, own_routeDelIface h rfl, rfl, rfl⟩
  · refine .inr ⟨t, fs, ?_, rfl, rfl⟩
    -- no gateway is found and another one is remembered: nothing can be installed
    cases hown : t.own with
    | none => rfl
    | some r =>
      have hfound : gatewayFound li t = none := by simpa using hgw
      have hr := own_gw_of_found_none h ho hfound r hown
      exact absurd (by rw [hfound, (h r hown).2.1, hr]) hsame
  · refine .inr ⟨t, fs, ?_, rfl, rfl⟩
    cases hown : t.own with
    | none => rfl
    | some r => exact absurd (h r hown).1 hp

theorem updateIfaceRoute_sound {li : LinkInfo} {t : Tables} {fs : FamilyState}
    (h : Sound (some li) t fs) (ho : ¬ Overtaken li t) :
    Sound (some li) (updateIfaceRoute li t fs).1.1 (updateIfaceRoute li t fs).1.2 := by
  rcases updateIfaceRoute_cases h ho with ⟨-, -, he⟩ | ⟨t', fs', hnone, -, he⟩
  · rwa [he]
  · rw [he]
    exact (addIfaceRoute_of_none hnone).1

theorem updateIfaceRoute_routed {li : LinkInfo} {t : Tables} {fs : FamilyState}
    (h : Sound (some li) t fs) (hup : li.up) (hready : t.ready) (hl : ¬ Lost li t fs)
    (hd : ¬ Outdated li t) (ho : ¬ Overtaken li t) :
    (updateIfaceRoute li t fs).1.1.own =
      some ⟨li.ifindex, currentGateway li t.toForeign⟩ := by
  have hcur : gatewayFound li t = currentGateway li t.toForeign := not_not.mp hd
  rcases updateIfaceRoute_cases h ho with ⟨hp, hsame, he⟩ | ⟨t', fs', hnone, hforeign, he⟩
  · -- the route is believed to be there with this gateway, and it has not been lost
    rw [he]
    show t.own = _
    cases hown : t.own with
    | none => exact absurd ⟨hp, hown, by rw [← hsame, hcur]⟩ hl
    | some r =>
      obtain ⟨-, hgw, -, li', hli', -, hoif⟩ := h r hown
      cases hli'
      rw [← hcur, hsame, hgw, hoif]
  · have hready' : t'.ready := by
      rw [show t'.ready = t'.toForeign.ready from rfl, hforeign]
      exact hready
    rw [he, (addIfaceRoute_of_none hnone).2 hup hready', hcur]

/-! ## Events -/

namespace World

def Sound (w : World) : Prop := ∀ f, Netfilter.Sound w.k.link (w.k.tables f) (w.l.fs f)

variable {w : World} {li : LinkInfo}

theorem set_sound (h : w.Sound) {f : Family} {p : Tables × FamilyState}
    (hp : Netfilter.Sound w.k.link p.1 p.2) : (w.set f p).Sound := by
  intro f'
  show Netfilter.Sound w.k.link (Function.update w.k.tables f p.1 f')
    (Function.update w.l.fs f p.2 f')
  by_cases hf : f' = f
  · subst hf
    rwa [Function.update_self, Function.update_self]
  · rw [Function.update_of_ne hf, Function.update_of_ne hf]
    exact h f'

theorem updateFamily_sound (h : w.Sound) (hlink : w.k.link = some li) {f : Family}
    (ho : w.l.ipt f → ¬ Overtaken li (w.k.tables f)) : (w.updateFamily li f).1.Sound := by
  unfold updateFamily
  split_ifs with hf
  · have hs := h f
    rw [hlink] at hs
    refine set_sound h ?_
    rw [hlink]
    exact updateIfaceRoute_sound hs (ho hf)
  · exact h

/-- What one family's update leaves alone. -/
theorem updateFamily_frame (w : World) (li : LinkInfo) (f : Family) :
    (w.updateFamily li f).1.k.link = w.k.link ∧ (w.updateFamily li f).1.l.ipt = w.l.ipt ∧
      ∀ f', f' ≠ f → (w.updateFamily li f).1.k.tables f' = w.k.tables f' ∧
        (w.updateFamily li f).1.l.fs f' = w.l.fs f' := by
  unfold updateFamily
  split_ifs
  · exact ⟨rfl, rfl, fun f' hf => ⟨Function.update_of_ne hf .., Function.update_of_ne hf ..⟩⟩
  · exact ⟨rfl, rfl, fun f' _ => ⟨rfl, rfl⟩⟩

theorem updateFamily_own {f : Family} (hf : w.l.ipt f) :
    ((w.updateFamily li f).1.k.tables f).own =
      (updateIfaceRoute li (w.k.tables f) (w.l.fs f)).1.1.own := by
  unfold updateFamily
  rw [if_pos hf]
  exact congrArg Tables.own (Function.update_self ..)

theorem updateRoutes_sound (h : w.Sound) (hlink : w.k.link = some li)
    (ho : ∀ f, w.l.ipt f → ¬ Overtaken li (w.k.tables f)) : (w.updateRoutes li).1.Sound := by
  obtain ⟨hlink₁, hipt₁, hother⟩ := updateFamily_frame w li .v4
  have h₁ := updateFamily_sound h hlink (ho .v4)
  unfold updateRoutes
  split
  · next w₁ e he => rwa [he] at h₁
  · next w₁ he =>
    rw [he] at h₁ hlink₁ hipt₁ hother
    refine updateFamily_sound h₁ (hlink₁.trans hlink) fun hf => ?_
    rw [(hother .v6 (by decide)).1]
    exact ho .v6 (hipt₁ ▸ hf)

/-- After an update without error every family has the route. -/
theorem updateRoutes_routed (h : w.Sound) (hlink : w.k.link = some li) (hup : li.up)
    (hfine : ∀ f, w.l.ipt f → (w.k.tables f).ready ∧ ¬ Lost li (w.k.tables f) (w.l.fs f) ∧
      ¬ Outdated li (w.k.tables f) ∧ ¬ Overtaken li (w.k.tables f))
    (hok : (w.updateRoutes li).2 = none) {f : Family} (hf : w.l.ipt f) :
    ((w.updateRoutes li).1.k.tables f).own =
      some ⟨li.ifindex, currentGateway li (w.k.tables f).toForeign⟩ := by
  obtain ⟨hlink₁, hipt₁, hother₁⟩ := updateFamily_frame w li .v4
  have hrouted : ∀ f, w.l.ipt f → (updateIfaceRoute li (w.k.tables f) (w.l.fs f)).1.1.own =
      some ⟨li.ifindex, currentGateway li (w.k.tables f).toForeign⟩ := by
    intro f hf
    have hs := h f
    rw [hlink] at hs
    obtain ⟨hready, hl, hd, ho⟩ := hfine f hf
    exact updateIfaceRoute_routed hs hup hready hl hd ho
  unfold updateRoutes at hok ⊢
  split at hok
  · cases hok
  · next w₁ he =>
    rw [he] at hipt₁ hother₁
    obtain ⟨-, -, hother₂⟩ := updateFamily_frame w₁ li .v6
    cases f with
    | v4 =>
      show ((w₁.updateFamily li .v6).1.k.tables .v4).own = _
      rw [(hother₂ .v4 (by decide)).1]
      rw [← show (w.updateFamily li .v4).1 = w₁ from by rw [he], updateFamily_own hf]
      exact hrouted .v4 hf
    | v6 =>
      show ((w₁.updateFamily li .v6).1.k.tables .v6).own = _
      obtain ⟨ht, hfs⟩ := hother₁ .v6 (by decide)
      rw [updateFamily_own (hipt₁ ▸ hf), ht, hfs]
      exact hrouted .v6 hf

theorem addBlackholes_sound (h : w.Sound) : w.addBlackholes.Sound := h

theorem insertIpRoute_sound (h : w.Sound)
    (ho : w.l.blackhole = false → ∀ li ∈ w.k.link, li.up → ∀ f, w.l.ipt f →
      ¬ Overtaken li (w.k.tables f)) :
    w.insertIpRoute.1.Sound := by
  unfold insertIpRoute
  simp only
  split_ifs with hb
  · exact addBlackholes_sound h
  · split
    · exact addBlackholes_sound h
    · next li hli =>
      split_ifs with hup
      · exact addBlackholes_sound h
      · exact updateRoutes_sound (addBlackholes_sound h) hli
          (ho (Bool.eq_false_iff.mpr hb) li hli (by simpa using hup))

/-- A teardown leaves no route behind. -/
theorem teardown_sound (h : w.Sound) : w.teardown.Sound := by
  intro f
  refine sound_of_own_none ?_
  show (deleteFamily w.k.link (w.k.tables f) (w.l.fs f)).1.own = none
  unfold deleteFamily
  have hs := h f
  cases hlink : w.k.link with
  | none =>
    -- without the interface there is no route
    have hnone : (w.k.tables f).own = none := by
      cases hown : (w.k.tables f).own with
      | none => rfl
      | some r =>
        obtain ⟨-, -, -, li, hli, -⟩ := hs r hown
        rw [hlink] at hli
        cases hli
    split_ifs
    · simp [routeDelIface, hnone]
    · exact hnone
  | some li =>
    split_ifs with hp
    · exact own_routeDelIface hs hlink
    · cases hown : (w.k.tables f).own with
      | none => rfl
      | some r => exact absurd (hs r hown).1 hp

theorem enable_sound (h : w.Sound) (ruleErr iptErr : Option Err) :
    (w.enable ruleErr iptErr).1.Sound := by
  have halloc : w.allocTable.Sound := fun f => sound_of_own_none rfl
  unfold enable
  split_ifs
  · exact h
  · split
    · exact teardown_sound halloc
    · have hins : w.allocTable.insertIpRule.insertIpRoute.1.Sound := by
        refine insertIpRoute_sound (fun f => sound_of_own_none rfl) fun _ li _ _ f _ ho => ?_
        obtain ⟨-, r, hr, -⟩ := ho
        cases hr
      split
      · next w₁ e he =>
        rw [he] at hins
        exact teardown_sound hins
      · next w₁ he =>
        rw [he] at hins
        split
        · exact teardown_sound hins
        · exact hins

theorem kernelChange_sound (h : w.Sound) (link : Option LinkInfo) (foreign : Family → Foreign) :
    (w.kernelChange link foreign).Sound := by
  intro f r hr
  obtain ⟨hr, hkeep⟩ := Option.filter_eq_some_iff.mp hr
  obtain ⟨hp, hgw, -, -⟩ := h f r hr
  rw [Bool.and_eq_true] at hkeep
  refine ⟨hp, hgw, hkeep.1, ?_⟩
  cases link with
  | none => cases hkeep.2
  | some li => exact ⟨li, rfl, by simpa using hkeep.2⟩

/-- At a call that may change routes the installed ones are not overtaken; and when the interface
comes up, no route has been lost or is out of date. -/
def Fine (w : World) : Event → Prop
  | .linkUp => w.l.enabled → w.l.blackhole = false → ∀ li ∈ w.k.link, li.up → ∀ f, w.l.ipt f →
    ¬ Lost li (w.k.tables f) (w.l.fs f) ∧ ¬ Outdated li (w.k.tables f) ∧
      ¬ Overtaken li (w.k.tables f)
  | .addrChange => w.l.enabled → w.l.blackhole = false → ∀ li ∈ w.k.link, ∀ f, w.l.ipt f →
    ¬ Overtaken li (w.k.tables f)
  | _ => True

theorem step_sound (e : Event) (h : w.Sound) (hfine : w.Fine e) : (w.step e).Sound := by
  cases e with
  | kernel link foreign => exact kernelChange_sound h link foreign
  | enable ruleErr iptErr => exact enable_sound h ruleErr iptErr
  | disable =>
    show w.disable.Sound
    unfold disable
    split_ifs
    · exact teardown_sound h
    · exact h
  | linkUp =>
    show w.onLinkUp.1.Sound
    unfold onLinkUp
    split_ifs with hen
    · exact insertIpRoute_sound h fun hb li hli hup f hf => (hfine hen hb li hli hup f hf).2.2
    · exact h
  | addrChange =>
    show w.onAddrChange.1.Sound
    unfold onAddrChange
    split_ifs with hen
    · rw [Bool.and_eq_true, Bool.not_eq_true'] at hen
      split
      · exact h
      · next li hli => exact updateRoutes_sound h hli (hfine hen.1 hen.2 li hli)
    · exact h

end World

open Lib.Runs (Guarded)

/-- In every history of events that meets the condition: when the call at link-up succeeds with the
interface there and up, and taking routes of the family, the one default route in the table of an
enabled family leads through the current index and the current gateway of the interface. -/
theorem linkUp_routed (blackhole : Bool) (ipt : Family → Bool) (link : Option LinkInfo)
    (foreign : Family → Foreign) (es pre post : List Event) (hes : es = pre ++ .linkUp :: post)
    (hfine : Guarded World.Fine World.step (World.new blackhole ipt link foreign) es)
    (w : World) (hw : w = pre.foldl World.step (World.new blackhole ipt link foreign))
    (henabled : w.l.enabled) (hb : w.l.blackhole = false) (hok : w.onLinkUp.2 = none)
    (li : LinkInfo) (hli : w.k.link = some li) (hup : li.up)
    (hready : ∀ f, w.l.ipt f → (w.k.tables f).ready) (f : Family) (hf : w.l.ipt f) :
    (w.onLinkUp.1.k.tables f).own =
      some ⟨li.ifindex, currentGateway li (w.k.tables f).toForeign⟩ := by
  rw [hes, Guarded.append] at hfine
  obtain ⟨hpre, hlast, -⟩ := hfine
  have hsound : w.Sound := by
    rw [hw]
    exact hpre.inv (I := World.Sound) (fun w e h he => World.step_sound e h he)
      fun f => sound_of_own_none rfl
  rw [← hw] at hlast
  have hroutes : w.onLinkUp = w.addBlackholes.updateRoutes li := by
    unfold World.onLinkUp World.insertIpRoute
    simp only [henabled, ↓reduceIte]
    rw [show w.addBlackholes.l.blackhole = false from hb, show w.addBlackholes.k.link = some li from
      hli]
    simp [hup]
  rw [hroutes] at hok ⊢
  refine World.updateRoutes_routed (w := w.addBlackholes) hsound hli hup (fun f hf => ?_) hok hf
  exact ⟨hready f hf, hlast henabled hb li hli hup f hf⟩

/-! ## Two histories -/

def viaGateway (ifindex : Nat) (gw : Bytes) : Family → Foreign
  | .v4 => ⟨[], [⟨ifindex, some gw⟩], true⟩
  | .v6 => ⟨[], [], true⟩

def onlyV4 : Family → Bool
  | .v4 => true
  | .v6 => false

def downAndUp (ifindex : Nat) (gw : Bytes) : List Event :=
  [.enable none none, .kernel none (viaGateway 0 []),
    .kernel (some ⟨ifindex, true, false⟩) (viaGateway ifindex gw)]

def linkWithGateway : World :=
  .new false onlyV4 (some ⟨5, true, false⟩) (viaGateway 5 [10, 0, 0, 1])

/-- The interface is recreated with another index and another gateway: the route follows. -/
theorem linkUp_routed_downAndUp :
    let w := (downAndUp 6 [10, 0, 0, 2]).foldl World.step linkWithGateway
    (w.onLinkUp.1.k.tables .v4).own = some ⟨6, some [10, 0, 0, 2]⟩ := by
  intro w
  refine linkUp_routed false onlyV4 (some ⟨5, true, false⟩) (viaGateway 5 [10, 0, 0, 1])
    (downAndUp 6 [10, 0, 0, 2] ++ [Event.linkUp]) (downAndUp 6 [10, 0, 0, 2]) [] rfl
    ⟨trivial, trivial, trivial, ?_, trivial⟩ w rfl rfl rfl (by decide) ⟨6, true, false⟩ rfl rfl
    (fun f hf => ?_) .v4 rfl
  · intro _ _ li hli _ f hf
    cases hli
    cases f with
    | v4 =>
      refine ⟨?_, ?_, ?_⟩
      · rintro ⟨-, -, hgw⟩
        exact absurd hgw (by decide)
      · unfold Outdated
        decide
      · rintro ⟨hp, -⟩
        cases hp
    | v6 => cases hf
  · cases f with
    | v4 => rfl
    | v6 => cases hf

/-- It comes back with the gateway it had: the call succeeds and there is no route. -/
theorem linkUp_lost_downAndUp :
    let w := (downAndUp 6 [10, 0, 0, 1]).foldl World.step linkWithGateway
    w.l.enabled ∧ w.k.link = some ⟨6, true, false⟩ ∧ w.onLinkUp.2 = none ∧
      currentGateway ⟨6, true, false⟩ (w.onLinkUp.1.k.tables .v4).toForeign =
        some [10, 0, 0, 1] ∧
      (w.onLinkUp.1.k.tables .v4).own = none := by
  decide

end MagiTrickle.Netfilter
