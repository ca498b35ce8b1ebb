import MagiTrickle.Netfilter.EnableUndone
import MagiTrickle.Netfilter.LinkRoutes

/-!
# The routes of a link as a view

`Netfilter.World` has of a link no more than its routes. It is a view of the
link as `Enable` has it, with its rules and chains: to every run of the link
belongs a run of the view with the same calls (`routes_run`). A removal may
fail, and so may rules and chains; but the view has a kernel that adds and
replaces routes where it can, and that looks for gateways in a dump of the
routes that are there (`Answers.Fit`).
-/

namespace MagiTrickle.Enable

open Lib.Runs
open Netfilter (Family IpRule LinkInfo Route FamilyState Tables Foreign allocMarkTable firstGateway
  gatewayForIface)
open Rebuild (Prefixes Engine)

/-! ## What happens to a link -/

/-- The interface changes, or one of the functions of `ipset_to_link.c` is called. -/
inductive LinkEvent where
  | interface (link : Option LinkInfo) (ready : Family → Bool)
  | enable (a : Answers)
  | disable (r : Removals)
  | linkUp (a : Answers)
  | addrChange (a : Answers)

def Work.step (pre : Prefixes) (w : Work) : LinkEvent → Work
  | .interface link ready => { w with sys := w.sys.interface link ready }
  | .enable a => (w.enable pre a).1
  | .disable r => (w.disable pre r).1
  | .linkUp a => (w.onLinkUp a).1
  | .addrChange a => (w.onAddrChange a).1

/-- What an event of a link is to the view of its routes: before an answer the kernel may have
changed what a dump lists. -/
inductive LinkEvent.Views : LinkEvent → List Netfilter.Event → Prop
  | interface (link ready foreign) : Views (.interface link ready) [.kernel link foreign]
  | enable (a link foreign ruleErr iptErr) :
      Views (.enable a) [.kernel link foreign, .enable ruleErr iptErr]
  | disable (r) : Views (.disable r) [.disable]
  | linkUp (a link foreign) : Views (.linkUp a) [.kernel link foreign, .linkUp]
  | addrChange (a link foreign) : Views (.addrChange a) [.kernel link foreign, .addrChange]

/-! ## A family of the view of routes -/

namespace Part

/-- The family as the view has it, but for the route. -/
structure Like (ipt : Bool) (t : Tables) (fs : FamilyState) (p : Part) : Prop where
  ipt : p.1.engine.isSome = ipt
  ready : p.1.ready = t.ready
  fs : p.2 = fs

/-- The family as the view has it. -/
structure Shows (n : UInt32) (ipt : Bool) (t : Tables) (fs : FamilyState) (p : Part) : Prop
    extends Like ipt t fs p where
  own : p.1.routes n 10 = t.own.map .via

section Shows

variable {n : UInt32} {ipt : Bool} {t : Tables} {fs : FamilyState} {p : Part}

theorem Shows.of_like {p' : Part} {fs' : FamilyState} (h : p.Shows n ipt t fs)
    (hlike : p'.Like ipt t fs') (hsame : p'.1.routes n 10 = p.1.routes n 10) :
    p'.Shows n ipt t fs' :=
  ⟨hlike, hsame.trans h.own⟩

theorem Shows.insertIpRule (h : p.Shows n ipt t fs) (del answer : Option Err)
    (hok : (p.insertIpRule n del answer).2 = none) :
    (p.insertIpRule n del answer).1.Shows n ipt t { fs with ruleAdded := ipt || fs.ruleAdded } := by
  obtain ⟨⟨engine, rules, routes, ready⟩, fs₀⟩ := p
  obtain rfl : fs₀ = fs := h.fs
  obtain rfl : engine.isSome = ipt := h.ipt
  cases engine with
  | none => exact h
  | some e =>
    cases answer with
    | some err => cases hok
    | none =>
      simp only [Part.insertIpRule, Option.isNone_some, Bool.false_eq_true, ↓reduceIte] at hok ⊢
      split_ifs at hok ⊢
      exact h.of_like ⟨rfl, h.ready, rfl⟩ rfl

theorem Shows.insertBlackhole (h : p.Shows n ipt t fs) :
    (p.insertBlackhole n none).1.Shows n ipt t { fs with
        blackholeAdded := ipt || fs.blackholeAdded } ∧
      (p.insertBlackhole n none).2 = none := by
  obtain ⟨⟨engine, rules, routes, ready⟩, fs₀⟩ := p
  obtain rfl : fs₀ = fs := h.fs
  obtain rfl : engine.isSome = ipt := h.ipt
  cases engine with
  | none => exact ⟨h, rfl⟩
  | some e =>
    have hsame : addRoute routes n 20 .blackhole n 10 = routes n 10 := addRoute_of_ne (by simp)
    exact ⟨h.of_like ⟨rfl, h.ready, rfl⟩ hsame, rfl⟩

theorem Shows.addIfaceRoute (h : p.Shows n ipt t fs) (li : LinkInfo) (gw : Option Bytes) :
    (p.addIfaceRoute n li none gw).1.Shows n ipt (Netfilter.addIfaceRoute li t fs gw).1.1
        (Netfilter.addIfaceRoute li t fs gw).1.2 ∧
      (p.addIfaceRoute n li none gw).2 = (Netfilter.addIfaceRoute li t fs gw).2 := by
  obtain ⟨⟨engine, rules, routes, ready⟩, fs₀⟩ := p
  obtain rfl : fs₀ = fs := h.fs
  obtain ⟨⟨before, after, ready'⟩, own⟩ := t
  obtain rfl : ready = ready' := h.ready
  have hown : routes n 10 = own.map .via := h.own
  unfold Netfilter.addIfaceRoute Netfilter.routeAddIface
  cases ready with
  | false => exact ⟨h.of_like ⟨h.ipt, rfl, rfl⟩ rfl, rfl⟩
  | true =>
    cases hup : li.up with
    | false =>
      simp only [Part.addIfaceRoute, hup, Bool.not_true, Bool.not_false, Bool.false_eq_true,
        ↓reduceIte]
      exact ⟨h, trivial⟩
    | true =>
      simp only [Part.addIfaceRoute, hup, Bool.not_true, Bool.false_eq_true, ↓reduceIte]
      cases own with
      | none => exact ⟨⟨⟨h.ipt, rfl, rfl⟩, addRoute_self hown⟩, rfl⟩
      | some r =>
        have hsame : addRoute routes n 10 (.via ⟨li.ifindex, gw⟩) n 10 = routes n 10 := by
          simp [addRoute, hown]
        exact ⟨h.of_like ⟨h.ipt, rfl, rfl⟩ hsame, rfl⟩

theorem Shows.updateIfaceRoute (h : p.Shows n true t fs) {li : LinkInfo}
    {lookup : Except Err (Option Bytes)}
    (hgw : lookup.toOption.getD none = gatewayForIface t li.ifindex) :
    (p.updateIfaceRoute n li lookup none none).1.Shows n true
        (Netfilter.updateIfaceRoute li t fs).1.1 (Netfilter.updateIfaceRoute li t fs).1.2 ∧
      (p.updateIfaceRoute n li lookup none none).2 = (Netfilter.updateIfaceRoute li t fs).2 := by
  obtain ⟨s, fs₀⟩ := p
  obtain rfl : fs₀ = fs := h.fs
  have hengine : s.engine.isNone = false := by
    rw [← Option.not_isSome, show s.engine.isSome = true from h.ipt]
    rfl
  have hfound : (if li.pointToPoint then none else lookup.toOption.getD none) =
      Netfilter.gatewayFound li t := by
    rw [hgw]
    rfl
  unfold Part.updateIfaceRoute Netfilter.updateIfaceRoute
  simp only [hengine, Bool.false_eq_true, ↓reduceIte, hfound]
  split_ifs with hpresent hsame hsome
  · exact ⟨h, rfl⟩
  · -- the old route goes first
    have hgone : Shows n true (Netfilter.routeDelIface t li.ifindex fs₀.gw)
        { fs₀ with ifaceRoutePresent := false }
        ({ s with routes := routeDelIface s.routes n li.ifindex fs₀.gw },
          { fs₀ with ifaceRoutePresent := false }) := by
      refine ⟨⟨h.ipt, h.ready, rfl⟩, ?_⟩
      have hown : s.routes n 10 = t.own.map .via := h.own
      show (if n = n ∧ 10 = 10 then _ else _) = _
      rw [if_pos ⟨rfl, rfl⟩, hown, Option.filter_map]
      rfl
    exact hgone.addIfaceRoute li _
  · exact h.addIfaceRoute li _
  · exact h.addIfaceRoute li _

theorem Shows.insertIptablesRules (h : p.Shows n ipt t fs) (pre : Prefixes) (l : IpsetToLink)
    (f : Family) (save restore : Option Err) :
    (p.insertIptablesRules pre l f save restore).1.Shows n ipt t fs := by
  obtain ⟨⟨engine, rules, routes, ready⟩, fs₀⟩ := p
  cases engine with
  | none => exact h
  | some e => exact h.of_like ⟨h.ipt, h.ready, h.fs⟩ rfl

end Shows

end Part

/-! ## The view of routes -/

/-- The link as the view has it, but for its routes. -/
structure Work.Like (v : Netfilter.World) (w : Work) : Prop where
  enabled : w.l.enabled = v.l.enabled
  blackhole : w.l.isBlackhole = v.l.blackhole
  link : w.sys.link = v.k.link
  parts : ∀ f, (w.part f).Like (v.l.ipt f) (v.k.tables f) (v.l.fs f)

/-- The link as the view has it. -/
structure Work.Shows (v : Netfilter.World) (w : Work) : Prop where
  enabled : w.l.enabled = v.l.enabled
  blackhole : w.l.isBlackhole = v.l.blackhole
  link : w.sys.link = v.k.link
  parts : ∀ f, (w.part f).Shows w.l.mark (v.l.ipt f) (v.k.tables f) (v.l.fs f)

def Target.route : Target → Option Route
  | .blackhole => none
  | .via r => some r

/-- The answers about routes are those of a kernel with these routes: a gateway is the one of some
dump, which lists the table of the link between those of others. -/
structure Answers.Fit (a : Answers) (w : Work) : Prop where
  link : a.link = none
  blackhole : ∀ f, a.blackhole f = none
  routeDel : ∀ f, a.routeDel f = none
  route : ∀ f, a.route f = none
  gateway : ∀ li ∈ w.sys.link, ∀ f, ∃ before after, (a.gateway f).toOption.getD none =
    firstGateway li.ifindex
      (before ++ (((w.sys.sides f).routes w.l.mark 10).bind Target.route).toList ++ after)

structure Answers.Agree (a : Answers) (v : Netfilter.World) : Prop where
  link : a.link = none
  blackhole : ∀ f, a.blackhole f = none
  routeDel : ∀ f, a.routeDel f = none
  route : ∀ f, a.route f = none
  gateway : ∀ li ∈ v.k.link, ∀ f,
    (a.gateway f).toOption.getD none = gatewayForIface (v.k.tables f) li.ifindex

section Routes

variable {v : Netfilter.World} {w : Work} {a : Answers}

theorem Work.Shows.like (h : w.Shows v) : w.Like v :=
  ⟨h.enabled, h.blackhole, h.link, fun f => (h.parts f).toLike⟩

theorem Work.Shows.on (h : w.Shows v) {f : Family} {act : Part → Part × Option Err}
    {p : Tables × FamilyState}
    (hact : (act (w.part f)).1.Shows w.l.mark (v.l.ipt f) p.1 p.2) :
    (w.on f act).1.Shows (v.set f p) := by
  refine ⟨h.enabled, h.blackhole, h.link, fun g => ?_⟩
  by_cases hg : g = f
  · subst hg
    simpa [Work.on, Work.setPart, Work.part, Netfilter.World.set] using hact
  · simpa [Work.on, Work.setPart, Work.part, Netfilter.World.set, hg] using h.parts g

/-- `update_iface_route` for a family. -/
theorem Work.Shows.updateFamily (h : w.Shows v) (li : LinkInfo) {f : Family}
    (hgw : (a.gateway f).toOption.getD none = gatewayForIface (v.k.tables f) li.ifindex) :
    (w.on f (Part.updateIfaceRoute w.l.mark li (a.gateway f) none none)).1.Shows
        (v.updateFamily li f).1 ∧
      (w.on f (Part.updateIfaceRoute w.l.mark li (a.gateway f) none none)).2 =
        (v.updateFamily li f).2 := by
  have hpart := h.parts f
  unfold Netfilter.World.updateFamily
  cases hipt : v.l.ipt f with
  | true =>
    rw [hipt] at hpart
    have hupdate := hpart.updateIfaceRoute hgw
    refine ⟨h.on ?_, hupdate.2⟩
    rw [hipt]
    exact hupdate.1
  | false =>
    have hnone : (w.part f).updateIfaceRoute w.l.mark li (a.gateway f) none none =
        (w.part f, none) := by
      have hengine : (w.part f).1.engine.isNone = true := by
        rw [← Option.not_isSome, hpart.ipt, hipt]
        rfl
      unfold Part.updateIfaceRoute
      simp [hengine]
    have hsame : (w.on f (Part.updateIfaceRoute w.l.mark li (a.gateway f) none none)) =
        (w, none) := by
      unfold Work.on
      rw [hnone]
      simp [Work.setPart, Work.part]
    rw [hsame]
    exact ⟨h, rfl⟩

theorem Work.Shows.updateRoutes (h : w.Shows v) (ha : a.Agree v) {li : LinkInfo}
    (hli : v.k.link = some li) :
    (w.updateRoutes a li).1.Shows (v.updateRoutes li).1 ∧
      (w.updateRoutes a li).2 = (v.updateRoutes li).2 := by
  have hother : (v.updateFamily li .v4).1.k.tables .v6 = v.k.tables .v6 := by
    unfold Netfilter.World.updateFamily
    split <;> simp [Netfilter.World.set]
  have hfirst := h.updateFamily li (ha.gateway li hli .v4)
  have hsecond := hfirst.1.updateFamily li (f := .v6) (a := a)
    (hother ▸ ha.gateway li hli .v6)
  have hmark : (w.on .v4 (Part.updateIfaceRoute w.l.mark li (a.gateway .v4) none none)).1.l.mark =
      w.l.mark := rfl
  rw [hmark] at hsecond
  obtain ⟨hshows, herr⟩ := hfirst
  unfold Work.updateRoutes Work.inTurn Netfilter.World.updateRoutes
  simp only [untilErr, ha.routeDel, ha.route]
  generalize w.on .v4 (Part.updateIfaceRoute w.l.mark li (a.gateway .v4) none none) = r at *
  generalize v.updateFamily li .v4 = r' at *
  obtain ⟨w', e⟩ := r
  obtain ⟨v', e'⟩ := r'
  obtain rfl : e = e' := herr
  cases e with
  | some e => exact ⟨hshows, rfl⟩
  | none =>
    dsimp only at hsecond ⊢
    generalize w'.on .v6 (Part.updateIfaceRoute w.l.mark li (a.gateway .v6) none none) = r at *
    obtain ⟨w'', e⟩ := r
    cases e with
    | some e => exact hsecond
    | none => exact hsecond

theorem Work.inTurn_eq (w : Work) (act : Family → Part → Part × Option Err) :
    w.inTurn act = Work.andThen (w.on .v4 (act .v4)) (·.on .v6 (act .v6)) := by
  unfold Work.inTurn Work.andThen
  rw [untilErr]
  cases w.on .v4 (act .v4) with
  | mk w₄ e₄ =>
    cases e₄ with
    | some e => rfl
    | none =>
      dsimp only
      rw [untilErr]
      cases w₄.on .v6 (act .v6) with
      | mk w₆ e₆ => cases e₆ <;> rfl

theorem Work.andThen_of_none {r : Work × Option Err} {next : Work → Work × Option Err}
    (h : r.2 = none) : Work.andThen r next = next r.1 := by
  obtain ⟨w, e⟩ := r
  obtain rfl : e = none := h
  rfl

theorem Work.andThen_of_some {r : Work × Option Err} {next : Work → Work × Option Err} {e : Err}
    (h : r.2 = some e) : Work.andThen r next = r := by
  obtain ⟨w, e'⟩ := r
  obtain rfl : e' = some e := h
  rfl

theorem Work.part_on (w : Work) (act : Part → Part × Option Err) :
    (w.on .v4 act).1.part .v6 = w.part .v6 := by
  simp [Work.on, Work.setPart, Work.part]

theorem Work.inTurn_eq_none {act : Family → Part → Part × Option Err} :
    (w.inTurn act).2 = none ↔ ∀ f, (act f (w.part f)).2 = none := by
  have hsecond : ((w.on .v4 (act .v4)).1.on .v6 (act .v6)).2 = (act .v6 (w.part .v6)).2 :=
    congrArg (fun p => (act .v6 p).2) (w.part_on (act .v4))
  rw [w.inTurn_eq]
  cases h₄ : (w.on .v4 (act .v4)).2 with
  | some e =>
    rw [Work.andThen_of_some h₄]
    exact ⟨fun h => absurd (h₄.symm.trans h) (by simp), fun h => h .v4⟩
  | none =>
    rw [Work.andThen_of_none h₄, hsecond]
    refine ⟨fun h f => ?_, fun h => h .v6⟩
    cases f with
    | v4 => exact h₄
    | v6 => exact h

theorem Work.inTurn_of_none {act : Family → Part → Part × Option Err}
    (h : (w.inTurn act).2 = none) :
    Held w.sys w.l (fun f p => p = (act f (w.part f)).1) (w.inTurn act).1 := by
  rw [w.inTurn_eq, Work.andThen_of_none (Work.inTurn_eq_none.mp h .v4)]
  refine ⟨rfl, rfl, rfl, fun f => ?_⟩
  cases f <;> simp [Work.on, Work.setPart, Work.part]

theorem Work.Shows.of_held {w' : Work} {v' : Netfilter.World} (h : w.Shows v)
    (henabled : v'.l.enabled = v.l.enabled) (hblackhole : v'.l.blackhole = v.l.blackhole)
    (hlink : v'.k.link = v.k.link)
    (hw : Held w.sys w.l (fun f p => p.Shows w.l.mark (v'.l.ipt f) (v'.k.tables f) (v'.l.fs f))
      w') : w'.Shows v' := by
  refine ⟨?_, ?_, ?_, fun f => ?_⟩
  · rw [henabled, ← h.enabled, hw.l]
  · rw [hblackhole, ← h.blackhole, IpsetToLink.isBlackhole, IpsetToLink.isBlackhole, hw.l]
  · rw [hlink, ← h.link, hw.link]
  · rw [hw.mark]
    exact hw.parts f

theorem Work.Shows.addBlackholes (h : w.Shows v) (ha : ∀ f, a.blackhole f = none) :
    (w.inTurn fun f => Part.insertBlackhole w.l.mark (a.blackhole f)).1.Shows v.addBlackholes ∧
      (w.inTurn fun f => Part.insertBlackhole w.l.mark (a.blackhole f)).2 = none := by
  have hpart := fun f => (h.parts f).insertBlackhole
  simp only [ha]
  have hnone : (w.inTurn fun _ => Part.insertBlackhole w.l.mark none).2 = none :=
    Work.inTurn_eq_none.mpr fun f => (hpart f).2
  refine ⟨h.of_held rfl rfl rfl ((Work.inTurn_of_none hnone).mono ?_), hnone⟩
  rintro f p rfl
  exact (hpart f).1

theorem Work.Shows.insertIpRoute (h : w.Shows v) (ha : a.Agree v) :
    (w.insertIpRoute a).1.Shows v.insertIpRoute.1 ∧
      (w.insertIpRoute a).2 = v.insertIpRoute.2 := by
  obtain ⟨hblack, hnone⟩ := h.addBlackholes ha.blackhole
  unfold Work.insertIpRoute
  generalize (w.inTurn fun f => Part.insertBlackhole w.l.mark (a.blackhole f)) = r at hblack hnone
  obtain ⟨w', e⟩ := r
  obtain rfl : e = none := hnone
  have ha' : a.Agree v.addBlackholes :=
    ⟨ha.link, ha.blackhole, ha.routeDel, ha.route, ha.gateway⟩
  show (w'.insertIfaceRoute a).1.Shows _ ∧ (w'.insertIfaceRoute a).2 = _
  unfold Work.insertIfaceRoute Netfilter.World.insertIpRoute
  dsimp only
  generalize v.addBlackholes = v' at hblack ha'
  have hb : w'.l.isBlackhole = v'.l.blackhole := hblack.blackhole
  have hlink : w'.sys.link = v'.k.link := hblack.link
  rw [hb, ha.link, hlink]
  cases v'.l.blackhole with
  | true => exact ⟨hblack, rfl⟩
  | false =>
    cases hli : v'.k.link with
    | none => exact ⟨hblack, rfl⟩
    | some li =>
      cases hup : li.up with
      | false =>
        simp only [hup, Bool.false_eq_true, ↓reduceIte, Bool.not_false]
        exact ⟨hblack, trivial⟩
      | true =>
        simp only [hup, Bool.false_eq_true, ↓reduceIte, Bool.not_true]
        exact hblack.updateRoutes ha' hli

theorem Work.Shows.onAddrChange (h : w.Shows v) (ha : a.Agree v) :
    (w.onAddrChange a).1.Shows v.onAddrChange.1 ∧
      (w.onAddrChange a).2 = v.onAddrChange.2 := by
  unfold Work.onAddrChange Netfilter.World.onAddrChange
  rw [h.enabled, h.blackhole, ha.link, h.link]
  cases v.l.enabled with
  | false => exact ⟨h, rfl⟩
  | true =>
    cases v.l.blackhole with
    | true => exact ⟨h, rfl⟩
    | false =>
      cases hli : v.k.link with
      | none => exact ⟨h, rfl⟩
      | some li => exact h.updateRoutes ha hli

/-! ### The route leads through the interface -/

/-- A route in the table leads through the interface, which is up and takes it. -/
def Through (link : Option LinkInfo) (t : Tables) : Prop :=
  ∀ r ∈ t.own, t.ready ∧ ∃ li ∈ link, li.up ∧ li.ifindex = r.oif

theorem through_addIfaceRoute {li : LinkInfo} {t : Tables} (h : Through (some li) t)
    (fs : FamilyState) (gw : Option Bytes) :
    Through (some li) (Netfilter.addIfaceRoute li t fs gw).1.1 := by
  unfold Netfilter.addIfaceRoute Netfilter.routeAddIface
  cases hready : t.ready with
  | false => exact h
  | true =>
    cases hup : li.up with
    | false => exact h
    | true =>
      cases hown : t.own with
      | some r => exact h
      | none =>
        intro r hr
        obtain rfl := Option.some.inj hr
        exact ⟨hready, li, rfl, hup, rfl⟩

theorem through_updateIfaceRoute {li : LinkInfo} {t : Tables} (h : Through (some li) t)
    (fs : FamilyState) : Through (some li) (Netfilter.updateIfaceRoute li t fs).1.1 := by
  unfold Netfilter.updateIfaceRoute
  dsimp only
  split_ifs
  · exact h
  · refine through_addIfaceRoute (fun r hr => ?_) _ _
    exact h r (Option.mem_filter_iff.mp hr).1
  · exact through_addIfaceRoute h _ _
  · exact through_addIfaceRoute h _ _

theorem through_updateRoutes {li : LinkInfo} (hli : v.k.link = some li)
    (h : ∀ f, Through v.k.link (v.k.tables f)) :
    ∀ f, Through (v.updateRoutes li).1.k.link ((v.updateRoutes li).1.k.tables f) := by
  have hfamily : ∀ (v : Netfilter.World) (g : Family), v.k.link = some li →
      (∀ f, Through v.k.link (v.k.tables f)) → (v.updateFamily li g).1.k.link = some li ∧
        ∀ f, Through (v.updateFamily li g).1.k.link ((v.updateFamily li g).1.k.tables f) := by
    intro v g hli h
    unfold Netfilter.World.updateFamily
    split
    · refine ⟨hli, fun f => ?_⟩
      by_cases hf : f = g
      · subst hf
        have hthrough := h f
        rw [hli] at hthrough
        simpa [Netfilter.World.set, hli] using through_updateIfaceRoute hthrough _
      · simpa [Netfilter.World.set, hf] using h f
    · exact ⟨hli, h⟩
  obtain ⟨hlink, hfirst⟩ := hfamily v .v4 hli h
  unfold Netfilter.World.updateRoutes
  generalize v.updateFamily li .v4 = r at hlink hfirst
  obtain ⟨v', e⟩ := r
  cases e with
  | some e => exact hfirst
  | none => exact (hfamily v' .v6 hlink hfirst).2

theorem through_insertIpRoute (h : ∀ f, Through v.k.link (v.k.tables f)) :
    ∀ f, Through v.insertIpRoute.1.k.link (v.insertIpRoute.1.k.tables f) := by
  unfold Netfilter.World.insertIpRoute
  dsimp only
  split
  · exact h
  · split
    · exact h
    · next li hli =>
      split
      · exact h
      · exact through_updateRoutes hli h

theorem through_onAddrChange (h : ∀ f, Through v.k.link (v.k.tables f)) :
    ∀ f, Through v.onAddrChange.1.k.link (v.onAddrChange.1.k.tables f) := by
  unfold Netfilter.World.onAddrChange
  split
  · split
    · exact h
    · next li hli => exact through_updateRoutes hli h
  · exact h

theorem enabled_updateRoutes (v : Netfilter.World) (li : LinkInfo) :
    (v.updateRoutes li).1.l.enabled = v.l.enabled := by
  have hfamily : ∀ (v : Netfilter.World) (f : Family),
      (v.updateFamily li f).1.l.enabled = v.l.enabled := by
    intro v f
    unfold Netfilter.World.updateFamily
    split <;> rfl
  unfold Netfilter.World.updateRoutes
  split
  · next v' e he => rw [← hfamily v .v4, he]
  · next v' he => rw [hfamily, ← hfamily v .v4, he]

theorem enabled_insertIpRoute (v : Netfilter.World) :
    v.insertIpRoute.1.l.enabled = v.l.enabled := by
  unfold Netfilter.World.insertIpRoute
  dsimp only
  split
  · rfl
  · split
    · rfl
    · split
      · rfl
      · exact enabled_updateRoutes v.addBlackholes _

theorem enabled_onAddrChange (v : Netfilter.World) : v.onAddrChange.1.l.enabled = v.l.enabled := by
  unfold Netfilter.World.onAddrChange
  split
  · split
    · rfl
    · exact enabled_updateRoutes v _
  · rfl

theorem through_kernelChange (v : Netfilter.World) (link : Option LinkInfo)
    (foreign : Family → Foreign) :
    ∀ f, Through (v.kernelChange link foreign).k.link
      ((v.kernelChange link foreign).k.tables f) := by
  intro f r hr
  obtain ⟨-, hkeep⟩ := Option.mem_filter_iff.mp hr
  obtain ⟨hready, hany⟩ := Bool.and_eq_true_iff.mp hkeep
  cases link with
  | none => cases hany
  | some li =>
    obtain ⟨hup, hidx⟩ := Bool.and_eq_true_iff.mp hany
    exact ⟨hready, li, rfl, hup, of_decide_eq_true hidx⟩

theorem own_kernelChange {f : Family} (h : Through v.k.link (v.k.tables f))
    {foreign : Family → Foreign} (hready : (foreign f).ready = (v.k.tables f).ready) :
    ((v.kernelChange v.k.link foreign).k.tables f).own = (v.k.tables f).own := by
  show (v.k.tables f).own.filter _ = _
  cases hown : (v.k.tables f).own with
  | none => rfl
  | some r =>
    obtain ⟨hr, li, hli, hup, hidx⟩ := h r hown
    have hlink : v.k.link = some li := hli
    rw [hready, hlink, Option.filter, if_pos]
    simp [hr, hup, hidx]

theorem Work.Shows.exists_foreign (h : w.Shows v) (ht : ∀ f, Through v.k.link (v.k.tables f))
    (ha : a.Fit w) : ∃ foreign, w.Shows (v.kernelChange v.k.link foreign) ∧
      a.Agree (v.kernelChange v.k.link foreign) := by
  have hdump : ∀ f, ∃ foreign : Foreign, foreign.ready = (v.k.tables f).ready ∧
      ∀ li ∈ v.k.link, (a.gateway f).toOption.getD none =
        firstGateway li.ifindex (foreign.before ++ (v.k.tables f).own.toList ++ foreign.after) := by
    intro f
    have hown : ((w.sys.sides f).routes w.l.mark 10).bind Target.route = (v.k.tables f).own := by
      rw [show (w.sys.sides f).routes w.l.mark 10 = _ from (h.parts f).own]
      cases (v.k.tables f).own <;> rfl
    cases hli : v.k.link with
    | none => exact ⟨(v.k.tables f).toForeign, rfl, fun li hli => nomatch hli⟩
    | some li =>
      obtain ⟨before, after, hgw⟩ := ha.gateway li (h.link.trans hli) f
      rw [hown] at hgw
      refine ⟨⟨before, after, (v.k.tables f).ready⟩, rfl, fun li' hli' => ?_⟩
      obtain rfl := Option.some.inj hli'
      exact hgw
  choose foreign hready hgw using hdump
  have hown := fun f => own_kernelChange (ht f) (hready f)
  refine ⟨foreign, ⟨h.enabled, h.blackhole, h.link, fun f => ?_⟩, ha.link, ha.blackhole,
    ha.routeDel, ha.route, fun li hli f => ?_⟩
  · refine ⟨⟨(h.parts f).ipt, (h.parts f).ready.trans (hready f).symm, (h.parts f).fs⟩, ?_⟩
    rw [hown]
    exact (h.parts f).own
  · rw [gatewayForIface, hown]
    exact hgw f li hli

/-! ### The flags go down -/

/-- What a link remembers after `teardown`. -/
def cleared (fs : FamilyState) : FamilyState :=
  { fs with ifaceRoutePresent := false, blackholeAdded := false, ruleAdded := false }

/-- The engine is there as before, and the interface takes routes as before. -/
def Part.Alike (s : Side) (p : Part) : Prop :=
  p.1.engine.isSome = s.engine.isSome ∧ p.1.ready = s.ready

theorem Part.alike_insertIpRule {s : Side} {p : Part} (h : p.Alike s) (n : UInt32)
    (del answer : Option Err) : (p.insertIpRule n del answer).1.Alike s ∧
      cleared (p.insertIpRule n del answer).1.2 = cleared p.2 := by
  obtain ⟨⟨engine, rules, routes, ready⟩, fs⟩ := p
  unfold Part.insertIpRule
  dsimp only
  split_ifs
  · exact ⟨h, rfl⟩
  · cases answer <;> exact ⟨h, rfl⟩
  · cases answer <;> exact ⟨h, rfl⟩

theorem Part.alike_deleteIfaceRoute {s : Side} {p : Part} (h : p.Alike s) (n : UInt32)
    (link : Option LinkInfo) (lookup answer : Option Err) :
    (p.deleteIfaceRoute n link lookup answer).1.Alike s ∧
      (p.deleteIfaceRoute n link lookup answer).1.2 = { p.2 with ifaceRoutePresent := false } := by
  obtain ⟨⟨engine, rules, routes, ready⟩, ⟨rule, blackhole, present, gw⟩⟩ := p
  cases present with
  | false => exact ⟨h, rfl⟩
  | true => exact ⟨h, rfl⟩

theorem Part.alike_deleteBlackhole {s : Side} {p : Part} (h : p.Alike s) (n : UInt32)
    (answer : Option Err) : (p.deleteBlackhole n answer).1.Alike s ∧
      (p.deleteBlackhole n answer).1.2 = { p.2 with blackholeAdded := false } := by
  obtain ⟨⟨engine, rules, routes, ready⟩, ⟨rule, blackhole, present, gw⟩⟩ := p
  cases blackhole with
  | false => exact ⟨h, rfl⟩
  | true => exact ⟨h, rfl⟩

theorem Part.alike_deleteIpRule {s : Side} {p : Part} (h : p.Alike s) (n : UInt32)
    (answer : Option Err) : (p.deleteIpRule n answer).1.Alike s ∧
      (p.deleteIpRule n answer).1.2 = { p.2 with ruleAdded := false } := by
  obtain ⟨⟨engine, rules, routes, ready⟩, ⟨rule, blackhole, present, gw⟩⟩ := p
  cases rule with
  | false => exact ⟨h, rfl⟩
  | true => exact ⟨h, rfl⟩

theorem Part.alike_deleteIptablesRules {s : Side} {p : Part} (h : p.Alike s) (pre : Prefixes)
    (l : IpsetToLink) (save restore : Option Err) :
    (p.deleteIptablesRules pre l save restore).1.Alike s ∧
      (p.deleteIptablesRules pre l save restore).1.2 = p.2 := by
  obtain ⟨⟨engine, rules, routes, ready⟩, fs⟩ := p
  cases engine with
  | none => exact ⟨h, rfl⟩
  | some e => exact ⟨h, rfl⟩

/-- After `teardown`, whatever fails in it. -/
theorem Work.teardown_cleared (pre : Prefixes) (r : Removals) (w : Work) :
    Held w.sys w.l (fun f p => p.Alike (w.sys.sides f) ∧ p.2 = cleared (w.l.fs f))
      (w.teardown pre r).1 := by
  have hroute : Held w.sys w.l (fun f p => p.Alike (w.sys.sides f) ∧
      p.2 = { w.l.fs f with ifaceRoutePresent := false, blackholeAdded := false })
      (w.deleteIpRoute r).1 := by
    have hstart : Held w.sys w.l (fun f p => p.Alike (w.sys.sides f) ∧ p.2 = w.l.fs f) w :=
      ⟨rfl, rfl, rfl, fun f => ⟨⟨rfl, rfl⟩, rfl⟩⟩
    unfold Work.deleteIpRoute
    refine Held.also (I := fun f p => p.Alike (w.sys.sides f) ∧
      p.2 = { w.l.fs f with ifaceRoutePresent := false }) (hstart.both _ fun f p hp => ?_)
      fun w' hw' => hw'.both _ fun f p hp => ?_
    · obtain ⟨halike, hfs⟩ := Part.alike_deleteIfaceRoute hp.1 w.l.mark w.sys.link (r.link f)
        (r.route f)
      exact ⟨halike, by rw [hfs, hp.2]⟩
    · obtain ⟨halike, hfs⟩ := Part.alike_deleteBlackhole hp.1 w.l.mark (r.blackhole f)
      exact ⟨halike, by rw [hfs, hp.2]⟩
  have hrule : Held w.sys w.l (fun f p => p.Alike (w.sys.sides f) ∧ p.2 = cleared (w.l.fs f))
      ((w.deleteIpRoute r).1.deleteIpRule r).1 := by
    unfold Work.deleteIpRule
    refine hroute.both _ fun f p hp => ?_
    obtain ⟨halike, hfs⟩ := Part.alike_deleteIpRule hp.1 (w.deleteIpRoute r).1.l.mark (r.rule f)
    refine ⟨halike, ?_⟩
    rw [hfs, hp.2]
    rfl
  unfold Work.teardown Work.also
  dsimp only
  refine hrule.both _ fun f p hp => ?_
  obtain ⟨halike, hfs⟩ := Part.alike_deleteIptablesRules hp.1 pre w.l (r.save f) (r.restore f)
  exact ⟨halike, hfs.trans hp.2⟩

/-! ### Runs -/

/-- An enabled link is as the view has it; of one that is not, the view may have another route. -/
structure Work.Tracks (v : Netfilter.World) (w : Work) : Prop where
  like : w.Like v
  on : w.l.enabled = true → w.Shows v ∧ ∀ f, Through v.k.link (v.k.tables f)
  off : w.l.enabled = false → ∀ f, cleared (w.l.fs f) = w.l.fs f

/-- The kernel answers as one with the routes of the link does, and a number that is given out has
no route yet. -/
def LinkEvent.Fit (w : Work) : LinkEvent → Prop
  | .interface _ _ => True
  | .enable a => ∀ idx, allocMarkTable a.dump w.l.startIdx = .ok idx →
      (∀ f, (w.sys.sides f).routes idx 10 = none) ∧ a.Fit { w with l := { w.l with mark := idx } }
  | .disable _ => True
  | .linkUp a => a.Fit w
  | .addrChange a => a.Fit w

theorem Work.Like.kernel (h : w.Like v) (foreign : Family → Foreign)
    (hready : ∀ f, (foreign f).ready = (v.k.tables f).ready) :
    w.Like (v.kernelChange v.k.link foreign) :=
  ⟨h.enabled, h.blackhole, h.link, fun f =>
    ⟨(h.parts f).ipt, (h.parts f).ready.trans (hready f).symm, (h.parts f).fs⟩⟩

theorem Work.Like.off {w w' : Work} (h : w.Like v) (hw : Held w.sys w.l
      (fun f p => p.Alike (w.sys.sides f) ∧ p.2 = cleared (w.l.fs f)) w')
    (hoff : w.l.enabled = false) : w'.Tracks v.teardown := by
  have hl : w'.l.enabled = w.l.enabled := by rw [hw.l]
  refine ⟨⟨hl.trans h.enabled, ?_, ?_, fun f => ?_⟩, fun hon => ?_, fun _ f => ?_⟩
  · rw [show v.teardown.l.blackhole = v.l.blackhole from rfl, ← h.blackhole,
      IpsetToLink.isBlackhole, IpsetToLink.isBlackhole, hw.l]
  · exact hw.link.trans h.link
  · obtain ⟨⟨hengine, hready⟩, hfs⟩ := hw.parts f
    refine ⟨hengine.trans (h.parts f).ipt, hready.trans ((h.parts f).ready.trans ?_), ?_⟩
    · show _ = (ite _ _ _ : Tables).ready
      split <;> rfl
    · rw [hfs, show w.l.fs f = v.l.fs f from (h.parts f).fs]
      rfl
  · rw [hl, hoff] at hon
    cases hon
  · rw [show w'.l.fs f = _ from (hw.parts f).2]
    rfl

theorem Work.Like.torn {w w' : Work} (h : w.Like v) (hw : Held w.sys w.l
      (fun f p => p.Alike (w.sys.sides f) ∧ cleared p.2 = cleared (w.l.fs f)) w')
    (hoff : w.l.enabled = false) (pre : Prefixes) (r : Removals) :
    (w'.teardown pre r).1.Tracks v.teardown := by
  have htorn := Work.teardown_cleared pre r w'
  refine h.off ⟨htorn.sets.trans hw.sets, htorn.link.trans hw.link, ?_, fun f => ?_⟩ hoff
  · rw [htorn.l, hw.l]
  · obtain ⟨⟨hengine, hready⟩, hfs⟩ := htorn.parts f
    obtain ⟨⟨hengine', hready'⟩, hfs'⟩ := hw.parts f
    exact ⟨⟨hengine.trans hengine', hready.trans hready'⟩, hfs.trans hfs'⟩

theorem Work.Tracks.same (h : w.Tracks v) :
    w.Tracks (v.kernelChange v.k.link fun f => (v.k.tables f).toForeign) := by
  have hlike := h.like.kernel (fun f => (v.k.tables f).toForeign) fun _ => rfl
  refine ⟨hlike, fun hon => ?_, h.off⟩
  obtain ⟨hshows, ht⟩ := h.on hon
  refine ⟨⟨hlike.enabled, hlike.blackhole, hlike.link, fun f => ⟨hlike.parts f, ?_⟩⟩,
    through_kernelChange v v.k.link _⟩
  rw [own_kernelChange (ht f) rfl]
  exact (hshows.parts f).own

theorem Work.Tracks.interface (h : w.Tracks v) (link : Option LinkInfo) (ready : Family → Bool) :
    Work.Tracks
      (v.kernelChange link fun f => ⟨(v.k.tables f).before, (v.k.tables f).after, ready f⟩)
      { w with sys := w.sys.interface link ready } := by
  have hlike : Work.Like
      (v.kernelChange link fun f => ⟨(v.k.tables f).before, (v.k.tables f).after, ready f⟩)
      { w with sys := w.sys.interface link ready } :=
    ⟨h.like.enabled, h.like.blackhole, rfl, fun f =>
      ⟨(h.like.parts f).ipt, rfl, (h.like.parts f).fs⟩⟩
  refine ⟨hlike, fun hon => ?_, h.off⟩
  obtain ⟨hshows, hthrough⟩ := h.on hon
  refine ⟨⟨hlike.enabled, hlike.blackhole, hlike.link, fun f => ⟨hlike.parts f, ?_⟩⟩,
    through_kernelChange v link _⟩
  show ((w.sys.sides f).routes w.l.mark 10).filter (survives w.sys.link link (ready f)) =
    ((v.k.tables f).own.filter _).map .via
  rw [show (w.sys.sides f).routes w.l.mark 10 = _ from (hshows.parts f).own]
  cases hown : (v.k.tables f).own with
  | none => rfl
  | some r =>
    -- the route led through the interface as it was
    obtain ⟨-, li, hli, -, hidx⟩ := hthrough f r hown
    have hlink : w.sys.link = some li := hshows.link.trans hli
    simp only [Option.map_some, Option.filter, survives, hlink, Option.any_some, hidx,
      decide_true, Bool.not_true, Bool.false_or]
    split_ifs <;> rfl

theorem Work.Tracks.disable {pre : Prefixes} (h : w.Tracks v) (r : Removals) :
    (w.disable pre r).1.Tracks v.disable := by
  unfold Work.disable Netfilter.World.disable
  rw [h.like.enabled]
  cases v.l.enabled with
  | false => exact h
  | true =>
    have hlike : Work.Like { v with l := { v.l with enabled := false } }
        { w with l := { w.l with enabled := false } } :=
      ⟨rfl, h.like.blackhole, h.like.link, fun f =>
        ⟨(h.like.parts f).ipt, (h.like.parts f).ready, (h.like.parts f).fs⟩⟩
    exact hlike.off (Work.teardown_cleared pre r _) rfl

/-- A report to a link, where the dump may be another one by then. -/
theorem Work.Tracks.report (h : w.Tracks v) (ha : a.Fit w)
    (act : Answers → Work → Work × Option Err)
    (act' : Netfilter.World → Netfilter.World × Option Err)
    (hoff : ∀ w v', w.l.enabled = false → v'.l.enabled = false →
      (act a w).1 = w ∧ (act' v').1 = v')
    (hon : ∀ v', w.Shows v' → a.Agree v' → (act a w).1.Shows (act' v').1)
    (henabled : ∀ v', (act' v').1.l.enabled = v'.l.enabled)
    (hthrough : ∀ v' : Netfilter.World, (∀ f, Through v'.k.link (v'.k.tables f)) →
      ∀ f, Through (act' v').1.k.link ((act' v').1.k.tables f)) :
    ∃ foreign, (act a w).1.Tracks (act' (v.kernelChange v.k.link foreign)).1 := by
  cases hw : w.l.enabled with
  | false =>
    obtain ⟨hsame, hsame'⟩ := hoff w (v.kernelChange v.k.link fun f => (v.k.tables f).toForeign)
      hw (h.like.enabled.symm.trans hw)
    refine ⟨fun f => (v.k.tables f).toForeign, ?_⟩
    rw [hsame, hsame']
    exact h.same
  | true =>
    obtain ⟨hshows, ht⟩ := h.on hw
    obtain ⟨foreign, hshows, hagree⟩ := hshows.exists_foreign ht ha
    have hafter := hon _ hshows hagree
    have hstill : (act a w).1.l.enabled = true := by
      rw [hafter.enabled, henabled, ← hshows.enabled, hw]
    exact ⟨foreign, hafter.like,
      fun _ => ⟨hafter, hthrough _ (through_kernelChange v v.k.link foreign)⟩,
      fun h' => absurd h' (by simp [hstill])⟩

theorem Work.Tracks.linkUp (h : w.Tracks v) (ha : a.Fit w) :
    ∃ foreign, (w.onLinkUp a).1.Tracks (v.kernelChange v.k.link foreign).onLinkUp.1 := by
  refine h.report ha (fun a w => w.onLinkUp a) Netfilter.World.onLinkUp
    (fun w v' hw hv => ?_) (fun v' h' ha' => ?_) (fun v' => ?_) fun v' ht => ?_
  · unfold Work.onLinkUp Netfilter.World.onLinkUp
    rw [hw, hv]
    exact ⟨rfl, rfl⟩
  · unfold Work.onLinkUp Netfilter.World.onLinkUp
    rw [h'.enabled]
    cases v'.l.enabled with
    | false => exact h'
    | true => exact (h'.insertIpRoute ha').1
  · unfold Netfilter.World.onLinkUp
    split
    · exact enabled_insertIpRoute v'
    · rfl
  · unfold Netfilter.World.onLinkUp
    split
    · exact through_insertIpRoute ht
    · exact ht

theorem Work.Tracks.addrChange (h : w.Tracks v) (ha : a.Fit w) :
    ∃ foreign, (w.onAddrChange a).1.Tracks (v.kernelChange v.k.link foreign).onAddrChange.1 := by
  refine h.report ha (fun a w => w.onAddrChange a) Netfilter.World.onAddrChange
    (fun w v' hw hv => ?_) (fun v' h' ha' => (h'.onAddrChange ha').1) enabled_onAddrChange
    fun v' => through_onAddrChange
  unfold Work.onAddrChange Netfilter.World.onAddrChange
  rw [hw, hv]
  exact ⟨rfl, rfl⟩

/-! ### Enabling -/

/-- `insert_ip_rule`, also where it fails. -/
theorem Work.held_insertIpRule (w : Work) (a : Answers) :
    Held w.sys w.l (fun f p => p.Alike (w.sys.sides f) ∧ cleared p.2 = cleared (w.l.fs f))
      (w.inTurn fun f => Part.insertIpRule w.l.mark (a.ruleDel f) (a.rule f)).1 := by
  have hstart : Held w.sys w.l
      (fun f p => p.Alike (w.sys.sides f) ∧ cleared p.2 = cleared (w.l.fs f)) w :=
    ⟨rfl, rfl, rfl, fun f => ⟨⟨rfl, rfl⟩, rfl⟩⟩
  refine hstart.inTurn fun f p hp => ?_
  obtain ⟨halike, hfs⟩ := Part.alike_insertIpRule hp.1 w.l.mark (a.ruleDel f) (a.rule f)
  exact ⟨halike, hfs.trans hp.2⟩

theorem Work.Shows.insertIpRule (h : w.Shows v)
    (hok : (w.inTurn fun f => Part.insertIpRule w.l.mark (a.ruleDel f) (a.rule f)).2 = none) :
    (w.inTurn fun f => Part.insertIpRule w.l.mark (a.ruleDel f) (a.rule f)).1.Shows
      v.insertIpRule := by
  refine h.of_held rfl rfl rfl ((Work.inTurn_of_none hok).mono ?_)
  rintro f p rfl
  exact (h.parts f).insertIpRule _ _ (Work.inTurn_eq_none.mp hok f)

theorem Work.Shows.insertIptablesRules (h : w.Shows v) (pre : Prefixes) :
    (w.inTurn fun f => Part.insertIptablesRules pre w.l f (a.save f) (a.restore f)).1.Shows v := by
  have hstart : Held w.sys w.l
      (fun f p => p.Shows w.l.mark (v.l.ipt f) (v.k.tables f) (v.l.fs f)) w :=
    ⟨rfl, rfl, rfl, h.parts⟩
  exact h.of_held rfl rfl rfl
    (hstart.inTurn fun f p hp => hp.insertIptablesRules pre w.l f (a.save f) (a.restore f))

theorem Work.Shows.torn (h : w.Shows v) (hoff : v.l.enabled = false) (pre : Prefixes)
    (r : Removals) : (w.teardown pre r).1.Tracks v.teardown :=
  h.like.torn ⟨rfl, rfl, rfl, fun _ => ⟨⟨rfl, rfl⟩, rfl⟩⟩ (h.enabled.trans hoff) pre r

/-- The end of `enable`. -/
def Work.finish (pre : Prefixes) (r : Removals) : Work × Option Err → Work × Option Err
  | (w, some e) => ((w.teardown pre r).1, some e)
  | (w, none) => ({ w with l := { w.l with enabled := true } }, none)

theorem Work.Shows.finished (h : w.Shows v) (ht : ∀ f, Through v.k.link (v.k.tables f)) :
    Work.Tracks { v with l := { v.l with enabled := true } }
      { w with l := { w.l with enabled := true } } := by
  have hshows : Work.Shows { v with l := { v.l with enabled := true } }
      { w with l := { w.l with enabled := true } } := ⟨rfl, h.blackhole, h.link, h.parts⟩
  exact ⟨hshows.like, fun _ => ⟨hshows, ht⟩, fun hoff => (nomatch hoff)⟩

/-- The steps of `enable` after the choice of a number that no route is in. -/
theorem Work.Shows.setUp (pre : Prefixes) (h : w.Shows v.allocTable) (ha : a.Agree v.allocTable)
    (hoff : v.l.enabled = false) : ∃ ruleErr iptErr, (Work.finish pre a.rollback
      (w.setUp pre a)).1.Tracks (v.enable ruleErr iptErr).1 := by
  have hheld := w.held_insertIpRule a
  have hins := h.insertIpRule (a := a)
  have hown : ∀ f, Through v.allocTable.insertIpRule.k.link
      (v.allocTable.insertIpRule.k.tables f) :=
    fun f r hr => nomatch hr
  refine ⟨(w.inTurn fun f => Part.insertIpRule w.l.mark (a.ruleDel f) (a.rule f)).2,
    (w.setUp pre a).2, ?_⟩
  unfold Netfilter.World.enable
  rw [hoff]
  unfold Work.setUp
  generalize (w.inTurn fun f => Part.insertIpRule w.l.mark (a.ruleDel f) (a.rule f)) = r at *
  obtain ⟨w₁, e₁⟩ := r
  cases e₁ with
  | some e => exact h.like.torn hheld (h.enabled.trans hoff) pre a.rollback
  | none =>
    have hroute := (hins rfl).insertIpRoute (a := a)
      ⟨ha.link, ha.blackhole, ha.routeDel, ha.route, ha.gateway⟩
    have ht := through_insertIpRoute hown
    have hoff' := (enabled_insertIpRoute v.allocTable.insertIpRule).trans hoff
    dsimp only [Work.andThen]
    generalize v.allocTable.insertIpRule.insertIpRoute = r' at *
    generalize w₁.insertIpRoute a = r at *
    obtain ⟨w₂, e₂⟩ := r
    obtain ⟨v₂, e₂'⟩ := r'
    obtain ⟨hshows, rfl⟩ : w₂.Shows v₂ ∧ e₂ = e₂' := hroute
    cases e₂ with
    | some e => exact hshows.torn hoff' pre a.rollback
    | none =>
      have hipt := hshows.insertIptablesRules (a := a) pre
      dsimp only
      generalize (w₂.inTurn fun f => Part.insertIptablesRules pre w₂.l f (a.save f) (a.restore f)) =
        r at *
      obtain ⟨w₃, e₃⟩ := r
      cases e₃ with
      | some e => exact hipt.torn hoff' pre a.rollback
      | none => exact hipt.finished ht

theorem Work.Tracks.enable (pre : Prefixes) (h : w.Tracks v)
    (ha : (LinkEvent.enable a).Fit w) :
    ∃ foreign ruleErr iptErr, (w.enable pre a).1.Tracks
      ((v.kernelChange v.k.link foreign).enable ruleErr iptErr).1 := by
  unfold Work.enable
  cases hw : w.l.enabled with
  | true =>
    refine ⟨fun f => (v.k.tables f).toForeign, none, none, ?_⟩
    unfold Netfilter.World.enable
    rw [show (v.kernelChange v.k.link _).l.enabled = true from h.like.enabled.symm.trans hw]
    exact h.same
  | false =>
    have hv : v.l.enabled = false := h.like.enabled.symm.trans hw
    cases hidx : allocMarkTable a.dump w.l.startIdx with
    | error e =>
      refine ⟨fun f => (v.k.tables f).toForeign, some e, none, ?_⟩
      unfold Netfilter.World.enable
      rw [show (v.kernelChange v.k.link _).l.enabled = false from hv]
      have hlike : w.Like (v.kernelChange v.k.link fun f => (v.k.tables f).toForeign).allocTable :=
        ⟨h.like.enabled, h.like.blackhole, h.like.link, fun f =>
          ⟨(h.like.parts f).ipt, (h.like.parts f).ready, (h.like.parts f).fs⟩⟩
      exact hlike.off ⟨rfl, rfl, rfl, fun f => ⟨⟨rfl, rfl⟩, (h.off hw f).symm⟩⟩ hw
    | ok idx =>
      obtain ⟨hfree, hfit⟩ := ha idx hidx
      have hshows : Work.Shows v.allocTable { w with l := { w.l with mark := idx } } :=
        ⟨h.like.enabled, h.like.blackhole, h.like.link, fun f =>
          ⟨⟨(h.like.parts f).ipt, (h.like.parts f).ready, (h.like.parts f).fs⟩, hfree f⟩⟩
      obtain ⟨foreign, hshows, hagree⟩ :=
        hshows.exists_foreign (fun f r hr => nomatch hr) hfit
      obtain ⟨ruleErr, iptErr, htracks⟩ :=
        Work.Shows.setUp pre (v := v.kernelChange v.k.link foreign) hshows hagree hv
      exact ⟨foreign, ruleErr, iptErr, htracks⟩

/-! ### Runs -/

theorem Work.Tracks.step (pre : Prefixes) (h : w.Tracks v) (e : LinkEvent) (he : e.Fit w) :
    ∃ es, e.Views es ∧ (w.step pre e).Tracks (es.foldl Netfilter.World.step v) := by
  cases e with
  | interface link ready => exact ⟨_, .interface link ready _, h.interface link ready⟩
  | enable a =>
    obtain ⟨foreign, ruleErr, iptErr, htracks⟩ := h.enable pre he
    exact ⟨_, .enable a v.k.link foreign ruleErr iptErr, htracks⟩
  | disable r => exact ⟨_, .disable r, h.disable r⟩
  | linkUp a =>
    obtain ⟨foreign, htracks⟩ := h.linkUp he
    exact ⟨_, .linkUp a v.k.link foreign, htracks⟩
  | addrChange a =>
    obtain ⟨foreign, htracks⟩ := h.addrChange he
    exact ⟨_, .addrChange a v.k.link foreign, htracks⟩

/-- In every run of a link whose answers fit, the view of its routes has a run of the same events
that ends where the link ends. -/
theorem routes_run {pre : Prefixes} {es : List LinkEvent}
    (hes : Guarded LinkEvent.Fit (Work.step pre) w es) (h : w.Tracks v) :
    ∃ views, List.Forall₂ LinkEvent.Views es views ∧
      (es.foldl (Work.step pre) w).Tracks (views.flatten.foldl Netfilter.World.step v) := by
  induction es generalizing w v with
  | nil => exact ⟨[], .nil, h⟩
  | cons e es ih =>
    obtain ⟨vs, hvs, hstep⟩ := h.step pre e hes.1
    obtain ⟨views, hviews, hrun⟩ := ih hes.2 hstep
    refine ⟨vs :: views, .cons hvs hviews, ?_⟩
    rw [List.flatten_cons, List.foldl_append]
    exact hrun

/-- A new link, before anything has happened to it. -/
theorem tracks_new (s : System) (rs : Ruleset) (foreign : Family → Foreign) :
    Work.Tracks (.new (IpsetToLink.new rs).isBlackhole (fun f => (s.sides f).engine.isSome) s.link
      fun f => { foreign f with ready := (s.sides f).ready }) ⟨s, .new rs⟩ :=
  ⟨⟨rfl, rfl, rfl, fun _ => ⟨rfl, rfl, rfl⟩⟩, fun hon => (nomatch hon), fun _ _ => rfl⟩

end Routes

end MagiTrickle.Enable
