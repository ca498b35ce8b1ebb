import MagiTrickle.Netfilter.EnableTables
import MagiTrickle.Netfilter.MarkFresh
import Mathlib.Data.Option.Defs

/-!
# Enabling is undone

Whatever a link has made of a family can be taken back (`Part.Undoable`): every
operation of the link keeps this, wherever it fails, and the kernel keeps it
when the interface changes. Tearing down then leaves the family as it would be
without the link, if nothing fails in that. `enable_undone` is about a ruleset: a
failed `enable` that could roll back changes nothing, and after one that
succeeded `disable` takes everything back, whatever happened in between.
-/

namespace MagiTrickle.Enable

open Iptables
open Netfilter (Family IpRule LinkInfo Route FamilyState KernelSet Dump allocMarkTable)
open Rebuild (Prefixes Engine)
open Lib.Runs (untilErr untilErr_inv)

/-! ## One family -/

/-- Nothing uses the number. -/
structure Free (n : UInt32) (s : Side) : Prop where
  rules : (⟨n, n⟩ : IpRule) ∉ s.rules
  routes : ∀ metric, s.routes n metric = none

/-- The tables list the same, and the rest is the same. -/
structure Side.Same (s s' : Side) : Prop where
  engine : Option.Rel (fun e e' => listed e'.kernel = listed e.kernel) s.engine s'.engine
  rules : s'.rules = s.rules
  routes : s'.routes = s.routes
  ready : s'.ready = s.ready

theorem Side.Same.refl (s : Side) : s.Same s := by
  refine ⟨?_, rfl, rfl, rfl⟩
  cases s.engine with
  | none => exact .none
  | some e => exact .some rfl

/-- What the link has made of the family `s₀` can be taken back by what it remembers of it. -/
structure Part.Undoable (pre : Prefixes) (id : Id) (n : UInt32) (link : Option LinkInfo)
    (s₀ : Side) (p : Part) : Prop where
  engine : Option.Rel (fun e₀ e => Near pre id e₀.kernel e) s₀.engine p.1.engine
  ready : p.1.ready = s₀.ready
  rules : p.1.rules = s₀.rules ∨ p.2.ruleAdded ∧ p.1.rules = s₀.rules ++ [⟨n, n⟩]
  others : ∀ m metric, ¬(m = n ∧ (metric = 10 ∨ metric = 20)) →
    p.1.routes m metric = s₀.routes m metric
  blackhole : p.1.routes n 20 = none ∨ p.2.blackholeAdded ∧ p.1.routes n 20 = some .blackhole
  iface : p.1.routes n 10 = none ∨ ∃ r li, p.1.routes n 10 = some (.via r) ∧ link = some li ∧
    r.oif = li.ifindex ∧ p.1.ready ∧ p.2.ifaceRoutePresent ∧ (p.2.gw = none ∨ r.gw = p.2.gw)

namespace Part

section Undoable

variable {pre : Prefixes} {id : Id} {n : UInt32} {link : Option LinkInfo} {s₀ : Side} {p : Part}

theorem Undoable.insertIpRule (h : Undoable pre id n link s₀ p) (hfree : Free n s₀)
    (del answer : Option Err) : Undoable pre id n link s₀ (p.insertIpRule n del answer).1 := by
  obtain ⟨s, fs⟩ := p
  have hrules : s.rules = s₀.rules ∨ fs.ruleAdded ∧ s.rules = s₀.rules ++ [⟨n, n⟩] := h.rules
  have hdel : ruleDel s.rules ⟨n, n⟩ del = s₀.rules ∨
      fs.ruleAdded ∧ ruleDel s.rules ⟨n, n⟩ del = s₀.rules ++ [⟨n, n⟩] := by
    unfold ruleDel
    split
    · exact hrules
    · refine .inl ?_
      rcases hrules with hr | ⟨-, hr⟩
      · rw [hr, List.erase_of_not_mem hfree.rules]
      · rw [hr, List.erase_append_right _ hfree.rules]
        simp
  unfold Part.insertIpRule
  dsimp only
  generalize ruleDel s.rules ⟨n, n⟩ del = rules at hdel
  split
  · exact h
  · split
    · exact { h with rules := hdel }
    · split
      · exact { h with rules := hdel }
      · next hmem =>
        rcases hdel with rfl | ⟨-, rfl⟩
        · exact { h with rules := .inr ⟨rfl, rfl⟩ }
        · exact absurd (List.mem_append_right _ (List.mem_singleton_self _)) hmem

theorem addRoute_self {routes : Routes} {n : UInt32} {k : Nat} {t : Target}
    (h : routes n k = none) : addRoute routes n k t n k = some t := by
  simp [addRoute, h]

theorem addRoute_of_ne {routes : Routes} {n m : UInt32} {k i : Nat} {t : Target}
    (h : ¬(m = n ∧ i = k)) : addRoute routes n k t m i = routes m i := by
  unfold addRoute
  exact if_neg fun hh => h ⟨hh.1, hh.2.1⟩

theorem Undoable.insertBlackhole (h : Undoable pre id n link s₀ p) (answer : Option Err) :
    Undoable pre id n link s₀ (p.insertBlackhole n answer).1 := by
  obtain ⟨s, fs⟩ := p
  simp only [Part.insertBlackhole]
  split
  · exact h
  · split
    · exact h
    · have hiface : addRoute s.routes n 20 .blackhole n 10 = s.routes n 10 :=
        addRoute_of_ne (by simp)
      refine { h with others := fun m k hk => ?_, blackhole := .inr ⟨rfl, ?_⟩, iface := ?_ }
      · exact (addRoute_of_ne fun hh => hk ⟨hh.1, .inr hh.2⟩).trans (h.others m k hk)
      · rcases h.blackhole with hb | ⟨-, hb⟩
        · exact addRoute_self hb
        · have hb : s.routes n 20 = some .blackhole := hb
          simp [addRoute, hb]
      · simpa only [hiface] using h.iface

theorem routeDelIface_of_ne {routes : Routes} {n m : UInt32} {oif i : Nat} {gw : Option Bytes}
    (h : ¬(m = n ∧ i = 10)) : routeDelIface routes n oif gw m i = routes m i := if_neg h

theorem Undoable.routeDelIface (h : Undoable pre id n link s₀ p) (oif : Nat)
    (hoif : oif = 0 ∨ oif = link.elim 0 LinkInfo.ifindex) :
    Part.routeDelIface p.1.routes n oif p.2.gw n 10 = none := by
  rw [Part.routeDelIface, if_pos ⟨rfl, rfl⟩]
  rcases h.iface with hr | ⟨r, li, hr, rfl, hli, -, -, hgw⟩
  · rw [hr]
    rfl
  · have hgw : p.2.gw = none ∨ p.2.gw = r.gw := hgw.imp_right Eq.symm
    have hoif : oif = 0 ∨ r.oif = oif := hoif.imp_right fun h => hli.trans h.symm
    rw [hr]
    rcases hoif with hoif | hoif <;> rcases hgw with hgw | hgw <;> simp [Option.filter, hoif, hgw]

theorem Undoable.addIfaceRoute {li : LinkInfo} (h : Undoable pre id n (some li) s₀ p)
    {gw : Option Bytes} (hgw : gw = none ∨ p.1.routes n 10 = none) (answer : Option Err) :
    Undoable pre id n (some li) s₀ (p.addIfaceRoute n li answer gw).1 := by
  obtain ⟨s, fs⟩ := p
  simp only [Part.addIfaceRoute]
  split
  · exact h
  · split
    · next hready =>
      -- a family that takes no routes has none through the interface
      refine { h with iface := .inl ?_ }
      rcases h.iface with hr | ⟨r, _, -, -, -, hready', -⟩
      · exact hr
      · have hready' : s.ready = true := hready'
        simp [hready'] at hready
    · next hready =>
      split
      · exact h
      · have hblack : addRoute s.routes n 10 (.via ⟨li.ifindex, gw⟩) n 20 = s.routes n 20 :=
          addRoute_of_ne (by simp)
        refine { h with others := fun m k hk => ?_, blackhole := ?_, iface := .inr ?_ }
        · exact (addRoute_of_ne fun hh => hk ⟨hh.1, .inl hh.2⟩).trans (h.others m k hk)
        · simpa only [hblack] using h.blackhole
        · have hready : s.ready = true := by simpa using hready
          rcases h.iface with hr | ⟨r, _, hr, hli, hoif, -⟩
          · exact ⟨_, li, addRoute_self hr, rfl, rfl, hready, rfl, .inr rfl⟩
          · have hr : s.routes n 10 = some (.via r) := hr
            refine ⟨r, li, by simp [addRoute, hr], rfl, ?_, hready, rfl, ?_⟩
            · rw [hoif, Option.some.inj hli]
            · refine .inl (hgw.resolve_right fun hnone => ?_)
              rw [show s.routes n 10 = none from hnone] at hr
              cases hr

theorem Undoable.updateIfaceRoute {li : LinkInfo} (h : Undoable pre id n (some li) s₀ p)
    (lookup : Except Err (Option Bytes)) (del answer : Option Err) :
    Undoable pre id n (some li) s₀ (p.updateIfaceRoute n li lookup del answer).1 := by
  have hdel := h.routeDelIface li.ifindex (.inr rfl)
  obtain ⟨s, fs⟩ := p
  simp only [Part.updateIfaceRoute]
  split
  · exact h
  · generalize (if li.pointToPoint = true then none else lookup.toOption.getD none) = gw
    split
    · split
      · exact h
      · split
        · split
          · exact h
          -- the old route goes first
          have hgone : Undoable pre id n (some li) s₀
              ({ s with routes := Part.routeDelIface s.routes n li.ifindex fs.gw },
                { fs with ifaceRoutePresent := false }) := by
            have hblack : Part.routeDelIface s.routes n li.ifindex fs.gw n 20 = s.routes n 20 :=
              routeDelIface_of_ne (by simp)
            refine { h with others := fun m k hk => ?_, blackhole := ?_, iface := .inl hdel }
            · exact (routeDelIface_of_ne fun hh => hk ⟨hh.1, .inl hh.2⟩).trans (h.others m k hk)
            · simpa only [hblack] using h.blackhole
          exact hgone.addIfaceRoute (.inr hdel) answer
        · next hgw =>
          exact h.addIfaceRoute (.inl (by simpa using hgw)) answer
    · next habsent =>
      refine h.addIfaceRoute (.inr ?_) answer
      rcases h.iface with hr | ⟨_, _, -, -, -, -, hpresent, -⟩
      · exact hr
      · exact absurd hpresent habsent

theorem Undoable.insertIptablesRules (h : Undoable pre id n link s₀ p)
    (habsent : ∀ e ∈ s₀.engine, Absent pre id e.kernel) {l : IpsetToLink} (hid : l.id = id)
    (f : Family) (save restore : Option Err) :
    Undoable pre id n link s₀ (p.insertIptablesRules pre l f save restore).1 := by
  obtain ⟨s, fs⟩ := p
  subst hid
  unfold Part.insertIptablesRules
  have hengine := h.engine
  split
  · exact h
  · next e he =>
    refine { h with engine := ?_ }
    rw [he] at hengine
    cases hs₀ : s₀.engine with
    | none =>
      rw [hs₀] at hengine
      cases hengine
    | some e₀ =>
      rw [hs₀] at hengine
      cases hengine with
      | some hnear =>
        exact .some (Near.insertRules (l := l.chains) hnear (habsent e₀ hs₀) f save restore)

/-! ### Taking it back -/

theorem Undoable.deleteIfaceRoute (h : Undoable pre id n link s₀ p) (lookup : Option Err) :
    Undoable pre id n link s₀ (p.deleteIfaceRoute n link lookup none).1 ∧
      (p.deleteIfaceRoute n link lookup none).1.1.routes n 10 = none ∧
      (p.deleteIfaceRoute n link lookup none).2 = none := by
  have hdel := h.routeDelIface (if lookup.isSome then 0 else link.elim 0 LinkInfo.ifindex)
    (by split <;> simp)
  obtain ⟨s, fs⟩ := p
  cases hpresent : fs.ifaceRoutePresent with
  | false =>
    rw [show Part.deleteIfaceRoute n link lookup none (s, fs) = ((s, fs), none) by
      simp [Part.deleteIfaceRoute, hpresent]]
    refine ⟨h, ?_, rfl⟩
    rcases h.iface with hr | ⟨_, _, -, -, -, -, hpresent', -⟩
    · exact hr
    · exact absurd (hpresent.symm.trans hpresent') (by decide)
  | true =>
    generalize hoif : (if lookup.isSome then 0 else link.elim 0 LinkInfo.ifindex) = oif at hdel
    rw [show Part.deleteIfaceRoute n link lookup none (s, fs) =
        (({ s with routes := Part.routeDelIface s.routes n oif fs.gw },
          { fs with ifaceRoutePresent := false }), none) by
      simp [Part.deleteIfaceRoute, hpresent, hoif]]
    have hblack : Part.routeDelIface s.routes n oif fs.gw n 20 = s.routes n 20 :=
      routeDelIface_of_ne (by simp)
    refine ⟨{ h with others := fun m k hk => ?_, blackhole := ?_, iface := .inl hdel }, hdel, rfl⟩
    · exact (routeDelIface_of_ne fun hh => hk ⟨hh.1, .inl hh.2⟩).trans (h.others m k hk)
    · simpa only [hblack] using h.blackhole

theorem routeDelBlackhole_of_ne {routes : Routes} {n m : UInt32} {i : Nat}
    (h : ¬(m = n ∧ i = 20)) : routeDelBlackhole routes n m i = routes m i :=
  if_neg fun hh => h ⟨hh.1, hh.2.1⟩

theorem Undoable.deleteBlackhole (h : Undoable pre id n link s₀ p)
    (hiface : p.1.routes n 10 = none) :
    Undoable pre id n link s₀ (p.deleteBlackhole n none).1 ∧
      (p.deleteBlackhole n none).1.1.routes n 10 = none ∧
      (p.deleteBlackhole n none).1.1.routes n 20 = none ∧ (p.deleteBlackhole n none).2 = none := by
  obtain ⟨s, fs⟩ := p
  cases hadded : fs.blackholeAdded with
  | false =>
    rw [show Part.deleteBlackhole n none (s, fs) = ((s, fs), none) by
      simp [Part.deleteBlackhole, hadded]]
    refine ⟨h, hiface, ?_, rfl⟩
    rcases h.blackhole with hb | ⟨hadded', -⟩
    · exact hb
    · exact absurd (hadded.symm.trans hadded') (by decide)
  | true =>
    have hgone : routeDelBlackhole s.routes n n 20 = none := by
      unfold routeDelBlackhole
      rcases h.blackhole with hb | ⟨-, hb⟩
      · have hb : s.routes n 20 = none := hb
        simp [hb]
      · exact if_pos ⟨rfl, rfl, hb⟩
    have hten : routeDelBlackhole s.routes n n 10 = none :=
      (routeDelBlackhole_of_ne (by simp)).trans hiface
    rw [show Part.deleteBlackhole n none (s, fs) =
        (({ s with routes := routeDelBlackhole s.routes n },
          { fs with blackholeAdded := false }), none) by
      simp [Part.deleteBlackhole, hadded]]
    refine ⟨{ h with others := fun m k hk => ?_, blackhole := .inl hgone, iface := .inl hten },
      hten, hgone, rfl⟩
    exact (routeDelBlackhole_of_ne fun hh => hk ⟨hh.1, .inr hh.2⟩).trans (h.others m k hk)

theorem Undoable.routes_eq (h : Undoable pre id n link s₀ p) (hfree : Free n s₀)
    (hiface : p.1.routes n 10 = none) (hblackhole : p.1.routes n 20 = none) :
    p.1.routes = s₀.routes := by
  funext m k
  by_cases hk : m = n ∧ (k = 10 ∨ k = 20)
  · obtain ⟨rfl, rfl | rfl⟩ := hk
    · rw [hiface, hfree.routes]
    · rw [hblackhole, hfree.routes]
  · exact h.others m k hk

theorem Undoable.deleteIpRule (h : Undoable pre id n link s₀ p) (hfree : Free n s₀) :
    Undoable pre id n link s₀ (p.deleteIpRule n none).1 ∧
      (p.deleteIpRule n none).1.1.rules = s₀.rules ∧
      (p.deleteIpRule n none).1.1.routes = p.1.routes ∧ (p.deleteIpRule n none).2 = none := by
  obtain ⟨s, fs⟩ := p
  cases hadded : fs.ruleAdded with
  | false =>
    rw [show Part.deleteIpRule n none (s, fs) = ((s, fs), none) by
      simp [Part.deleteIpRule, hadded]]
    refine ⟨h, ?_, rfl, rfl⟩
    rcases h.rules with hr | ⟨hadded', -⟩
    · exact hr
    · exact absurd (hadded.symm.trans hadded') (by decide)
  | true =>
    have hrules : ruleDel s.rules ⟨n, n⟩ none = s₀.rules := by
      rcases h.rules with hr | ⟨-, hr⟩
      · rw [show s.rules = s₀.rules from hr]
        exact List.erase_of_not_mem hfree.rules
      · rw [show s.rules = s₀.rules ++ [⟨n, n⟩] from hr]
        show List.erase (s₀.rules ++ [⟨n, n⟩]) _ = _
        rw [List.erase_append_right _ hfree.rules]
        simp
    rw [show Part.deleteIpRule n none (s, fs) =
        (({ s with rules := ruleDel s.rules ⟨n, n⟩ none }, { fs with ruleAdded := false }), none) by
      simp [Part.deleteIpRule, hadded]]
    exact ⟨{ h with rules := .inl hrules }, hrules, rfl, rfl⟩

theorem deleteIptablesRules_of_near
    (hengine : Option.Rel (fun e₀ e => Near pre id e₀.kernel e) s₀.engine p.1.engine)
    (habsent : ∀ e ∈ s₀.engine, Absent pre id e.kernel) {l : IpsetToLink} (hid : l.id = id) :
    (p.deleteIptablesRules pre l none none).2 = none ∧
      ∃ engine, (p.deleteIptablesRules pre l none none).1 = ({ p.1 with engine := engine }, p.2) ∧
        Option.Rel (fun e₀ e => Near pre id e₀.kernel e) s₀.engine engine ∧
        Option.Rel (fun e e' => listed e'.kernel = listed e.kernel) s₀.engine engine := by
  obtain ⟨⟨engine, rules, routes, ready⟩, fs⟩ := p
  subst hid
  have hengine : Option.Rel _ s₀.engine engine := hengine
  generalize hs₀ : s₀.engine = engine₀ at hengine habsent
  cases hengine with
  | none => exact ⟨rfl, none, rfl, .none, .none⟩
  | some hnear =>
    obtain ⟨hnone, hnear', hlisted⟩ := Near.removeRules (l := l.chains) hnear (habsent _ rfl)
    exact ⟨hnone, _, rfl, .some hnear', .some hlisted⟩

/-- A removal that fails leaves what the tables of an untouched engine list. -/
theorem deleteIptablesRules_of_same
    (hengine : Option.Rel (fun e₀ e => Near pre id e₀.kernel e) s₀.engine p.1.engine)
    (hsame : Option.Rel (fun e e' => listed e'.kernel = listed e.kernel) s₀.engine p.1.engine)
    (habsent : ∀ e ∈ s₀.engine, Absent pre id e.kernel) {l : IpsetToLink} (hid : l.id = id)
    (save restore : Option Err) :
    ∃ engine, (p.deleteIptablesRules pre l save restore).1 = ({ p.1 with engine := engine }, p.2) ∧
      Option.Rel (fun e₀ e => Near pre id e₀.kernel e) s₀.engine engine ∧
      Option.Rel (fun e e' => listed e'.kernel = listed e.kernel) s₀.engine engine := by
  obtain ⟨⟨engine, rules, routes, ready⟩, fs⟩ := p
  subst hid
  have hengine : Option.Rel _ s₀.engine engine := hengine
  have hsame : Option.Rel _ s₀.engine engine := hsame
  generalize hs₀ : s₀.engine = engine₀ at hengine hsame habsent
  cases hengine with
  | none => exact ⟨none, rfl, .none, .none⟩
  | some hnear =>
    cases hsame with
    | some hsame =>
      obtain ⟨hnear', hlisted⟩ :=
        Near.removeRules_answering (l := l.chains) hnear (habsent _ rfl) save restore
      refine ⟨_, rfl, .some hnear', .some ?_⟩
      rcases hlisted with hlisted | hkernel
      · exact hlisted
      · exact (congrArg listed hkernel).trans hsame

/-! ### The kernel changes the interface -/

theorem Undoable.interface (h : Undoable pre id n link s₀ p) (link' : Option LinkInfo)
    (ready : Bool) :
    Undoable pre id n link'
      { s₀ with
        routes := fun m k => (s₀.routes m k).filter (survives link link' ready), ready := ready }
      ({ p.1 with
        routes := fun m k => (p.1.routes m k).filter (survives link link' ready),
        ready := ready }, p.2) := by
  refine ⟨h.engine, rfl, h.rules, fun m k hk => ?_, ?_, ?_⟩
  · simp only [h.others m k hk]
  · rcases h.blackhole with hb | ⟨hadded, hb⟩
    · exact .inl (by simp [hb])
    · exact .inr ⟨hadded, by simp [hb, Option.filter, survives]⟩
  · rcases h.iface with hr | ⟨r, li, hr, rfl, hoif, -, hpresent, hgw⟩
    · exact .inl (by simp [hr])
    · by_cases hs : survives (some li) link' ready (.via r) = true
      · refine .inr ⟨r, ?_⟩
        have hs' := hs
        simp only [survives, Option.any_some, hoif, decide_true, Bool.not_true, Bool.false_or,
          Bool.and_eq_true] at hs'
        obtain ⟨hready, hany⟩ := hs'
        cases link' with
        | none => cases hany
        | some li' =>
          simp only [Option.any_some, Bool.and_eq_true, decide_eq_true_eq] at hany
          exact ⟨li', by simp [hr, Option.filter, hs], rfl, hoif.trans hany.2.symm, hready,
            hpresent, hgw⟩
      · exact .inl (by simp [hr, Option.filter, hs])

end Undoable

end Part

/-! ## The link -/

/-- Work for one link: the sets and the interface are those of the system `s₀`, the link is `l₀` but
for what it remembers, and of each family something holds. -/
structure Held (s₀ : System) (l₀ : IpsetToLink) (I : Family → Part → Prop) (w : Work) : Prop where
  sets : w.sys.sets = s₀.sets
  link : w.sys.link = s₀.link
  l : w.l = { l₀ with fs := w.l.fs }
  parts : ∀ f, I f (w.part f)

namespace Held

variable {s₀ : System} {l₀ : IpsetToLink} {I J : Family → Part → Prop} {w : Work}

theorem mark (h : Held s₀ l₀ I w) : w.l.mark = l₀.mark := by rw [h.l]

theorem id (h : Held s₀ l₀ I w) : w.l.id = l₀.id := by rw [h.l]

theorem mono (h : Held s₀ l₀ I w) (hIJ : ∀ f p, I f p → J f p) : Held s₀ l₀ J w :=
  { h with parts := fun f => hIJ f _ (h.parts f) }

theorem on (h : Held s₀ l₀ I w) (f : Family) {act : Part → Part × Option Err}
    (hact : ∀ p, I f p → I f (act p).1) : Held s₀ l₀ I (w.on f act).1 := by
  refine ⟨h.sets, h.link, ?_, fun g => ?_⟩
  · exact congrArg (fun l : IpsetToLink => { l with fs := (w.on f act).1.l.fs }) h.l
  · by_cases hg : g = f
    · subst hg
      simpa [Work.on, Work.setPart, Work.part] using hact _ (h.parts g)
    · simpa [Work.on, Work.setPart, Work.part, hg] using h.parts g

theorem inTurn (h : Held s₀ l₀ I w) {act : Family → Part → Part × Option Err}
    (hact : ∀ f p, I f p → I f (act f p).1) : Held s₀ l₀ I (w.inTurn act).1 :=
  untilErr_inv (fun _ f _ hw => hw.on f (hact f)) h

theorem both (h : Held s₀ l₀ I w) (act : Family → Part → Part × Option Err)
    (hact : ∀ f p, I f p → J f (act f p).1) : Held s₀ l₀ J (w.both act).1 := by
  have hkeep : Held s₀ l₀ (fun _ _ => True) (w.both act).1 :=
    ((h.mono fun _ _ _ => trivial).on .v4 fun _ _ => trivial).on .v6 fun _ _ => trivial
  have hpart : ∀ f, (w.both act).1.part f = (act f (w.part f)).1 := by
    intro f
    cases f <;> simp [Work.both, Work.also, Work.on, Work.setPart, Work.part]
  exact { hkeep with parts := fun f => hpart f ▸ hact f _ (h.parts f) }

theorem both_none (h : Held s₀ l₀ I w) (act : Family → Part → Part × Option Err)
    (hact : ∀ f p, I f p → (act f p).2 = none) : (w.both act).2 = none := by
  have herr : (w.both act).2 = ((act .v4 (w.part .v4)).2 <|> (act .v6 (w.part .v6)).2) := by
    simp [Work.both, Work.also, Work.on, Work.setPart, Work.part]
  rw [herr, hact .v4 _ (h.parts .v4), hact .v6 _ (h.parts .v6)]
  rfl

theorem also {r : Work × Option Err} {next : Work → Work × Option Err} (h : Held s₀ l₀ I r.1)
    (hnext : ∀ w, Held s₀ l₀ I w → Held s₀ l₀ J (next w).1) : Held s₀ l₀ J (Work.also r next).1 :=
  hnext _ h

theorem also_none {r : Work × Option Err} {next : Work → Work × Option Err}
    (hr : r.2 = none) (hnext : (next r.1).2 = none) : (Work.also r next).2 = none := by
  unfold Work.also
  rw [hr, hnext]
  rfl

theorem andThen {r : Work × Option Err} (h : Held s₀ l₀ I r.1) {next : Work → Work × Option Err}
    (hnext : ∀ w, Held s₀ l₀ I w → Held s₀ l₀ I (next w).1) :
    Held s₀ l₀ I (Work.andThen r next).1 := by
  obtain ⟨w, err⟩ := r
  cases err with
  | some e => exact h
  | none => exact hnext w h

end Held

section Link

variable {pre : Prefixes} {s₀ : System} {l₀ : IpsetToLink} {n : UInt32} {w : Work}

/-- What the link has made of the families. -/
abbrev Kept (pre : Prefixes) (s₀ : System) (l₀ : IpsetToLink) (w : Work) : Prop :=
  Held s₀ l₀ (fun f p => p.Undoable pre l₀.id l₀.mark s₀.link (s₀.sides f)) w

theorem Kept.updateRoutes (h : Kept pre s₀ l₀ w) (a : Answers) {li : LinkInfo}
    (hli : s₀.link = some li) : Kept pre s₀ l₀ (w.updateRoutes a li).1 := by
  unfold Work.updateRoutes
  rw [h.mark]
  refine h.inTurn fun f p hp => ?_
  rw [hli] at hp ⊢
  exact hp.updateIfaceRoute (a.gateway f) (a.routeDel f) (a.route f)

theorem Kept.insertIpRoute (h : Kept pre s₀ l₀ w) (a : Answers) :
    Kept pre s₀ l₀ (w.insertIpRoute a).1 := by
  refine Held.andThen ?_ fun w hw => ?_
  · rw [h.mark]
    exact h.inTurn fun f p hp => hp.insertBlackhole (a.blackhole f)
  · unfold Work.insertIfaceRoute
    split
    · exact hw
    · split
      · exact hw
      · split
        · exact hw
        · next li hli =>
          split
          · exact Kept.updateRoutes hw a (hw.link.symm.trans hli)
          · exact hw

theorem Kept.setUp (h : Kept pre s₀ l₀ w) (a : Answers) (hfree : ∀ f, Free l₀.mark (s₀.sides f))
    (habsent : ∀ f, ∀ e ∈ (s₀.sides f).engine, Absent pre l₀.id e.kernel) :
    Kept pre s₀ l₀ (w.setUp pre a).1 := by
  refine Held.andThen ?_ fun w hw => Held.andThen (Kept.insertIpRoute hw a) fun w hw => ?_
  · rw [h.mark]
    exact h.inTurn fun f p hp => hp.insertIpRule (hfree f) (a.ruleDel f) (a.rule f)
  · exact hw.inTurn fun f p hp =>
      hp.insertIptablesRules (habsent f) hw.id f (a.save f) (a.restore f)

theorem Kept.onLinkUp (h : Kept pre s₀ l₀ w) (a : Answers) :
    Kept pre s₀ l₀ (w.onLinkUp a).1 := by
  unfold Work.onLinkUp
  split
  · exact h.insertIpRoute a
  · exact h

theorem Kept.onAddrChange (h : Kept pre s₀ l₀ w) (a : Answers) :
    Kept pre s₀ l₀ (w.onAddrChange a).1 := by
  unfold Work.onAddrChange
  split
  · exact h
  · split
    · exact h
    · cases hli : w.sys.link with
      | none => exact h
      | some li => exact h.updateRoutes a (h.link.symm.trans hli)

section Teardown

variable {r : Removals}

theorem Kept.deleteIpRoute (h : Kept pre s₀ l₀ w) (hfree : ∀ f, Free l₀.mark (s₀.sides f))
    (hr : r.Succeed) : (w.deleteIpRoute r).2 = none ∧
      Held s₀ l₀ (fun f p => p.Undoable pre l₀.id l₀.mark s₀.link (s₀.sides f) ∧
        p.1.routes = (s₀.sides f).routes) (w.deleteIpRoute r).1 := by
  unfold Work.deleteIpRoute
  rw [h.mark, h.link]
  have hiface : Held s₀ l₀ (fun f p => p.Undoable pre l₀.id l₀.mark s₀.link (s₀.sides f) ∧
      p.1.routes l₀.mark 10 = none)
      (w.both fun f => Part.deleteIfaceRoute l₀.mark s₀.link (r.link f) (r.route f)).1 :=
    h.both _ fun f p hp => by
      rw [hr.route]
      exact ⟨(hp.deleteIfaceRoute _).1, (hp.deleteIfaceRoute _).2.1⟩
  refine ⟨Held.also_none (h.both_none _ fun f p hp => ?_) (hiface.both_none _ fun f p hp => ?_),
    Held.also hiface fun w hw => hw.both _ fun f p hp => ?_⟩
  · rw [hr.route]
    exact (hp.deleteIfaceRoute _).2.2
  · rw [hr.blackhole]
    exact (hp.1.deleteBlackhole hp.2).2.2.2
  · rw [hr.blackhole]
    obtain ⟨hundo, hten, htwenty, -⟩ := hp.1.deleteBlackhole hp.2
    exact ⟨hundo, hundo.routes_eq (hfree f) hten htwenty⟩

theorem deleteIpRule_held (h : Held s₀ l₀ (fun f p =>
      p.Undoable pre l₀.id l₀.mark s₀.link (s₀.sides f) ∧ p.1.routes = (s₀.sides f).routes) w)
    (hfree : ∀ f, Free l₀.mark (s₀.sides f)) (hr : r.Succeed) : (w.deleteIpRule r).2 = none ∧
      Held s₀ l₀ (fun f p => p.Undoable pre l₀.id l₀.mark s₀.link (s₀.sides f) ∧
        p.1.routes = (s₀.sides f).routes ∧ p.1.rules = (s₀.sides f).rules)
        (w.deleteIpRule r).1 := by
  unfold Work.deleteIpRule
  rw [h.mark]
  refine ⟨h.both_none _ fun f p hp => ?_, h.both _ fun f p hp => ?_⟩
  · rw [hr.rule]
    exact (hp.1.deleteIpRule (hfree f)).2.2.2
  · rw [hr.rule]
    obtain ⟨hundo, hrules, hroutes, -⟩ := hp.1.deleteIpRule (hfree f)
    exact ⟨hundo, hroutes.trans hp.2, hrules⟩

/-- Tearing down leaves every family as it would be without the link. -/
theorem Kept.teardown (h : Kept pre s₀ l₀ w) (hfree : ∀ f, Free l₀.mark (s₀.sides f))
    (habsent : ∀ f, ∀ e ∈ (s₀.sides f).engine, Absent pre l₀.id e.kernel) (hr : r.Succeed) :
    (w.teardown pre r).2 = none ∧ Held s₀ l₀ (fun f p => (s₀.sides f).Same p.1)
      (w.teardown pre r).1 := by
  obtain ⟨hnone₁, h₁⟩ := h.deleteIpRoute hfree hr
  obtain ⟨hnone₂, h₂⟩ := deleteIpRule_held h₁ hfree hr
  have hlast : ∀ f (p : Part), p.Undoable pre l₀.id l₀.mark s₀.link (s₀.sides f) ∧
      p.1.routes = (s₀.sides f).routes ∧ p.1.rules = (s₀.sides f).rules →
      (p.deleteIptablesRules pre w.l (r.save f) (r.restore f)).2 = none ∧
        (s₀.sides f).Same (p.deleteIptablesRules pre w.l (r.save f) (r.restore f)).1.1 := by
    intro f p hp
    rw [hr.save, hr.restore]
    obtain ⟨hnone, engine, heq, -, hlisted⟩ :=
      Part.deleteIptablesRules_of_near hp.1.engine (habsent f) h.id
    rw [heq]
    exact ⟨hnone, hlisted, hp.2.2, hp.2.1, hp.1.ready⟩
  have hnone₃ := h₂.both_none _ fun f p hp => (hlast f p hp).1
  have h₃ := h₂.both (J := fun f p => (s₀.sides f).Same p.1) _ fun f p hp => (hlast f p hp).2
  unfold Work.teardown Work.also
  dsimp only
  rw [hnone₁, hnone₂, hnone₃]
  exact ⟨rfl, h₃⟩

end Teardown

end Link

/-! ### A new link -/

/-- Nothing was done for the link, but its chains may have been deleted. -/
structure Part.Untouched (pre : Prefixes) (id : Id) (s₀ : Side) (p : Part) : Prop where
  fs : p.2 = ⟨false, false, false, none⟩
  engine : Option.Rel (fun e₀ e => Near pre id e₀.kernel e) s₀.engine p.1.engine
  rules : p.1.rules = s₀.rules
  routes : p.1.routes = s₀.routes
  ready : p.1.ready = s₀.ready

section New

variable {pre : Prefixes} {id : Id} {s₀ : System} {rs : Ruleset}

theorem Part.Untouched.undoable {p : Part} {s₀ : Side} (h : p.Untouched pre id s₀) {n : UInt32}
    (hfree : Free n s₀) (link : Option LinkInfo) : p.Undoable pre id n link s₀ where
  engine := h.engine
  ready := h.ready
  rules := .inl h.rules
  others m k _ := by rw [h.routes]
  blackhole := .inl (by rw [h.routes, hfree.routes])
  iface := .inl (by rw [h.routes, hfree.routes])

theorem Part.Untouched.deleteIfaceRoute {p : Part} {s₀ : Side} (h : p.Untouched pre id s₀)
    (n : UInt32) (link : Option LinkInfo) (lookup answer : Option Err) :
    (p.deleteIfaceRoute n link lookup answer).1 = p := by
  obtain ⟨s, fs⟩ := p
  obtain rfl : fs = ⟨false, false, false, none⟩ := h.fs
  rfl

theorem Part.Untouched.deleteBlackhole {p : Part} {s₀ : Side} (h : p.Untouched pre id s₀)
    (n : UInt32) (answer : Option Err) : (p.deleteBlackhole n answer).1 = p := by
  obtain ⟨s, fs⟩ := p
  obtain rfl : fs = ⟨false, false, false, none⟩ := h.fs
  rfl

theorem Part.Untouched.deleteIpRule {p : Part} {s₀ : Side} (h : p.Untouched pre id s₀)
    (n : UInt32) (answer : Option Err) : (p.deleteIpRule n answer).1 = p := by
  obtain ⟨s, fs⟩ := p
  obtain rfl : fs = ⟨false, false, false, none⟩ := h.fs
  rfl

/-- Nothing was done for a new link, and the tables list the same. -/
abbrev Fresh (pre : Prefixes) (s₀ : System) (rs : Ruleset) (w : Work) : Prop :=
  Held s₀ (.new rs) (fun f p => p.Untouched pre rs.id (s₀.sides f) ∧ (s₀.sides f).Same p.1) w

theorem Fresh.both {w : Work} (h : Fresh pre s₀ rs w) (act : Family → Part → Part × Option Err)
    (hact : ∀ f p, p.Untouched pre rs.id (s₀.sides f) ∧ (s₀.sides f).Same p.1 →
      (act f p).1.Untouched pre rs.id (s₀.sides f) ∧ (s₀.sides f).Same (act f p).1.1) :
    Fresh pre s₀ rs (w.both act).1 := Held.both h act hact

/-- Clearing before a link is enabled for the first time, also where it fails. -/
theorem clearIfDisabled_new (r : Removals)
    (hnear : ∀ f, ∀ e ∈ (s₀.sides f).engine, Near pre rs.id e.kernel e)
    (habsent : ∀ f, ∀ e ∈ (s₀.sides f).engine, Absent pre rs.id e.kernel) :
    Fresh pre s₀ rs (Work.clearIfDisabled pre r ⟨s₀, .new rs⟩).1 := by
  have hstart : Fresh pre s₀ rs ⟨s₀, .new rs⟩ := by
    refine ⟨rfl, rfl, rfl, fun f => ⟨⟨rfl, ?_, rfl, rfl, rfl⟩, .refl _⟩⟩
    show Option.Rel _ (s₀.sides f).engine (s₀.sides f).engine
    cases he : (s₀.sides f).engine with
    | none => exact .none
    | some e => exact .some (hnear f e he)
  unfold Work.clearIfDisabled
  rw [if_neg (by simp [IpsetToLink.new])]
  unfold Work.teardown Work.deleteIpRoute Work.deleteIpRule Work.also
  dsimp only
  refine Fresh.both (.both (.both (.both hstart _ fun f p hp => ?_) _ fun f p hp => ?_) _
    fun f p hp => ?_) _ fun f p hp => ?_
  · rw [hp.1.deleteIfaceRoute]
    exact hp
  · rw [hp.1.deleteBlackhole]
    exact hp
  · rw [hp.1.deleteIpRule]
    exact hp
  · obtain ⟨engine, heq, hengine, hlisted⟩ := Part.deleteIptablesRules_of_same hp.1.engine
      hp.2.engine (habsent f) (l := .new rs) rfl (r.save f) (r.restore f)
    rw [heq]
    exact ⟨⟨hp.1.fs, hengine, hp.1.rules, hp.1.routes, hp.1.ready⟩,
      ⟨hlisted, hp.1.rules, hp.1.routes, hp.1.ready⟩⟩

/-- `mt_ipset_to_link_enable` of a new link: it is enabled, or what was done is taken back. -/
theorem enable_new {l₀ : IpsetToLink} {w : Work} {a : Answers}
    (hw : Held s₀ l₀ (fun f p => p.Untouched pre l₀.id (s₀.sides f) ∧ (s₀.sides f).Same p.1) w)
    (hoff : l₀.enabled = false)
    (hfree : ∀ idx, allocMarkTable a.dump l₀.startIdx = .ok idx → ∀ f, Free idx (s₀.sides f))
    (habsent : ∀ f, ∀ e ∈ (s₀.sides f).engine, Absent pre l₀.id e.kernel)
    (hback : a.rollback.Succeed) :
    ((w.enable pre a).2 = none ∧ (w.enable pre a).1.l.enabled = true ∧
        (w.enable pre a).1.l.id = l₀.id ∧
        (∀ f, Free (w.enable pre a).1.l.mark (s₀.sides f)) ∧
        Kept pre s₀ (w.enable pre a).1.l (w.enable pre a).1) ∨
      ((w.enable pre a).2 ≠ none ∧
        Held s₀ l₀ (fun f p => (s₀.sides f).Same p.1) { (w.enable pre a).1 with l := l₀ }) := by
  have henabled : w.l.enabled = false := by
    rw [hw.l]
    exact hoff
  have hstart : w.l.startIdx = l₀.startIdx := by rw [hw.l]
  unfold Work.enable
  rw [if_neg (by simp [henabled]), hstart]
  cases halloc : allocMarkTable a.dump l₀.startIdx with
  | error e => exact .inr ⟨by simp, hw.sets, hw.link, rfl, fun f => (hw.parts f).2⟩
  | ok idx =>
    have hkept : Kept pre s₀ { l₀ with mark := idx } { w with l := { w.l with mark := idx } } := by
      refine ⟨hw.sets, hw.link, ?_, fun f => (hw.parts f).1.undoable (hfree idx halloc f) s₀.link⟩
      exact congrArg (fun l : IpsetToLink => { l with mark := idx }) hw.l
    have hset := hkept.setUp a (hfree idx halloc) habsent
    simp only
    split
    · next w₁ e hr =>
      rw [hr] at hset
      have hdown := hset.teardown (hfree idx halloc) habsent hback
      exact .inr ⟨by simp, hdown.2.sets, hdown.2.link, rfl, hdown.2.parts⟩
    · next w₁ hr =>
      rw [hr] at hset
      refine .inl ⟨rfl, rfl, hset.id, fun f => ?_, hset.sets, hset.link, rfl, fun f => ?_⟩
      · show Free w₁.l.mark _
        rw [hset.mark]
        exact hfree idx halloc f
      · show Part.Undoable pre w₁.l.id w₁.l.mark s₀.link (s₀.sides f) (w₁.part f)
        rw [hset.mark, hset.id]
        exact hset.parts f

end New

/-! ## The sets -/

section Sets

variable {pre : Prefixes} {id : Id} {s s₀ : System}

/-- Apart from the sets of a ruleset the sets are those of another system. -/
def SetsOff (pre : Prefixes) (id : Id) (s₀ s : System) : Prop :=
  ∀ name, (∀ f, name ≠ Rebuild.ipsetName pre id f) → s.sets name = s₀.sets name

theorem System.sets_destroyBoth {r : Removals} (hr : r.Succeed) (s : System) (f : Family) :
    (s.destroyBoth pre id r).1.sets (Rebuild.ipsetName pre id f) = none := by
  cases f <;>
    simp [System.destroyBoth, System.destroy, hr.destroy, Function.update_apply]

theorem System.destroyBoth_none {r : Removals} (hr : r.Succeed) (s : System) :
    (s.destroyBoth pre id r).2 = none := by
  simp [System.destroyBoth, System.destroy, hr.destroy]

theorem SetsOff.refl (s : System) : SetsOff pre id s s := fun _ _ => rfl

theorem SetsOff.trans {s₁ : System} (h : SetsOff pre id s₀ s₁) (h' : SetsOff pre id s₁ s) :
    SetsOff pre id s₀ s := fun name hname => (h' name hname).trans (h name hname)

theorem setsOff_destroy (pre : Prefixes) (id : Id) (s : System) (f : Family) (answer : Option Err) :
    SetsOff pre id s (s.destroy (Rebuild.ipsetName pre id f) answer).1 ∧
      (s.destroy (Rebuild.ipsetName pre id f) answer).1.sides = s.sides ∧
      (s.destroy (Rebuild.ipsetName pre id f) answer).1.link = s.link := by
  unfold System.destroy
  cases answer with
  | some e => exact ⟨.refl s, rfl, rfl⟩
  | none => exact ⟨fun name hname => by simp [hname f], rfl, rfl⟩

theorem setsOff_destroyBoth (s : System) (r : Removals) :
    SetsOff pre id s (s.destroyBoth pre id r).1 ∧ (s.destroyBoth pre id r).1.sides = s.sides ∧
      (s.destroyBoth pre id r).1.link = s.link := by
  have h₄ := setsOff_destroy pre id s .v4 (r.destroy .v4)
  have h₆ := setsOff_destroy pre id (s.destroy (Rebuild.ipsetName pre id .v4) (r.destroy .v4)).1
    .v6 (r.destroy .v6)
  exact ⟨h₄.1.trans h₆.1, h₆.2.1.trans h₄.2.1, h₆.2.2.trans h₄.2.2⟩

theorem setsOff_create (pre : Prefixes) (id : Id) (s : System) (f : Family) (answer : Option Err) :
    SetsOff pre id s (s.create (Rebuild.ipsetName pre id f) f answer).1 ∧
      (s.create (Rebuild.ipsetName pre id f) f answer).1.sides = s.sides ∧
      (s.create (Rebuild.ipsetName pre id f) f answer).1.link = s.link := by
  unfold System.create
  split
  · exact ⟨.refl s, rfl, rfl⟩
  · split
    · exact ⟨.refl s, rfl, rfl⟩
    · exact ⟨fun name hname => by simp [hname f], rfl, rfl⟩

theorem SetsOff.eq (h : SetsOff pre id s₀ s)
    (hs : ∀ f, s.sets (Rebuild.ipsetName pre id f) = s₀.sets (Rebuild.ipsetName pre id f)) :
    s.sets = s₀.sets := by
  funext name
  by_cases hname : ∃ f, name = Rebuild.ipsetName pre id f
  · obtain ⟨f, rfl⟩ := hname
    exact hs f
  · exact h name fun f hf => hname ⟨f, hf⟩

theorem SetsOff.destroyBoth (h : SetsOff pre id s₀ s)
    (hnone : ∀ f, s₀.sets (Rebuild.ipsetName pre id f) = none) {r : Removals} (hr : r.Succeed) :
    (s.destroyBoth pre id r).1.sets = s₀.sets :=
  (h.trans (setsOff_destroyBoth s r).1).eq fun f => by rw [System.sets_destroyBoth hr, hnone]

theorem setsOff_createBoth (s : System) (a : Answers) :
    SetsOff pre id s (s.createBoth pre id a).1 ∧ (s.createBoth pre id a).1.sides = s.sides ∧
      (s.createBoth pre id a).1.link = s.link := by
  have h₄ := setsOff_create pre id s .v4 (a.create .v4)
  unfold System.createBoth
  split
  · next hr =>
    rw [hr] at h₄
    exact h₄
  · next s₁ hr =>
    rw [hr] at h₄
    have h₆ := setsOff_create pre id s₁ .v6 (a.create .v6)
    exact ⟨h₄.1.trans h₆.1, h₆.2.1.trans h₄.2.1, h₆.2.2.trans h₄.2.2⟩

theorem setsOff_recreateBoth (s : System) (a : Answers) :
    SetsOff pre id s (s.recreateBoth pre id a).1 ∧ (s.recreateBoth pre id a).1.sides = s.sides ∧
      (s.recreateBoth pre id a).1.link = s.link := by
  have hdestroy := @setsOff_destroyBoth pre id s a.clear
  unfold System.recreateBoth
  split
  · next hr =>
    rw [hr] at hdestroy
    exact hdestroy
  · next s₁ hr =>
    rw [hr] at hdestroy
    have hcreate := @setsOff_createBoth pre id s₁ a
    exact ⟨hdestroy.1.trans hcreate.1, hcreate.2.1.trans hdestroy.2.1,
      hcreate.2.2.trans hdestroy.2.2⟩

/-- The sets are made, or nothing of them is there. -/
theorem System.ipsetEnable_cases (s : System) (a : Answers) (hback : a.rollback.Succeed) :
    SetsOff pre id s (s.ipsetEnable pre id a).1 ∧
      (s.ipsetEnable pre id a).1.sides = s.sides ∧ (s.ipsetEnable pre id a).1.link = s.link ∧
      ((s.ipsetEnable pre id a).2 ≠ none →
        ∀ f, (s.ipsetEnable pre id a).1.sets (Rebuild.ipsetName pre id f) = none) := by
  have hmake := @setsOff_recreateBoth pre id s a
  unfold System.ipsetEnable
  split
  · next s₁ e hr =>
    rw [hr] at hmake
    have hdestroy := @setsOff_destroyBoth pre id s₁ a.rollback
    exact ⟨hmake.1.trans hdestroy.1, hdestroy.2.1.trans hmake.2.1, hdestroy.2.2.trans hmake.2.2,
      fun _ f => System.sets_destroyBoth hback s₁ f⟩
  · next s₁ hr =>
    rw [hr] at hmake
    exact ⟨hmake.1, hmake.2.1, hmake.2.2, fun h => absurd rfl h⟩

end Sets

/-! ## The ruleset -/

/-- Two systems that list the same. -/
structure System.Same (s s' : System) : Prop where
  sets : s'.sets = s.sets
  link : s'.link = s.link
  sides : ∀ f, (s.sides f).Same (s'.sides f)

/-- The ruleset is off and nothing of it is in the kernel; the dump shows every number that is used
and leaves one to give out; what is staged for others is carried out. -/
structure World.Ready (pre : Prefixes) (dump : Dump) (w : World) : Prop where
  enabled : w.rs.enabled = false
  ipset : w.rs.ipset = none
  ipsetToLink : w.rs.ipsetToLink = none
  sets : ∀ f, w.sys.sets (Rebuild.ipsetName pre w.rs.id f) = none
  absent : ∀ f, ∀ e ∈ (w.sys.sides f).engine, Absent pre w.rs.id e.kernel
  settled : ∀ f, ∀ e ∈ (w.sys.sides f).engine, Near pre w.rs.id e.kernel e
  shown : ∀ f n, ¬Free n (w.sys.sides f) → dump.Uses n.toNat
  hasFree : dump.HasFree w.rs.startIdx

section Ruleset

variable {pre : Prefixes} {s₀ : System} {rs₀ : Ruleset} {w : World}

/-- The ruleset `rs₀` is on, and what it made in the system `s₀` can be taken back. -/
def World.On (pre : Prefixes) (s₀ : System) (rs₀ : Ruleset) (w : World) : Prop :=
  ∃ l : IpsetToLink,
    w.rs = { rs₀ with enabled := true, ipset := some true, ipsetToLink := some l } ∧
      l.enabled ∧ l.id = rs₀.id ∧ (∀ f, Free l.mark (s₀.sides f)) ∧ SetsOff pre rs₀.id s₀ w.sys ∧
      Kept pre { s₀ with sets := w.sys.sets } l ⟨w.sys, l⟩

theorem World.Ready.free {a : Answers} (h : w.Ready pre a.dump) {idx : UInt32}
    (halloc : allocMarkTable a.dump w.rs.startIdx = .ok idx) (f : Family) :
    Free idx (w.sys.sides f) := by
  by_contra hused
  exact ((Netfilter.allocMarkTable_iff halloc).mpr h.hasFree).2.2 (h.shown f idx hused)

/-- `ruleset_enable_locked`: it fails with at most the sets left, or turns the ruleset on. -/
theorem World.Ready.enableLocked {a : Answers} (h : w.Ready pre a.dump)
    (hback : a.rollback.Succeed) (hconf : w.rs.configured = true) :
    ((w.enableLocked pre a).2 = none ∧ World.On pre w.sys w.rs (w.enableLocked pre a).1) ∨
      ((w.enableLocked pre a).2 ≠ none ∧ ∃ s ipset,
        (w.enableLocked pre a).1 = ⟨s, { w.rs with enabled := true, ipset := ipset }⟩ ∧
        SetsOff pre w.rs.id w.sys s ∧ (ipset = none ∧ s.sets = w.sys.sets ∨ ipset = some true) ∧
        s.link = w.sys.link ∧ ∀ f, (w.sys.sides f).Same (s.sides f)) := by
  obtain ⟨sys, id, iface, configured, startIdx, enabled, ipset, ipsetToLink⟩ := w
  obtain rfl : configured = true := hconf
  obtain rfl : enabled = false := h.enabled
  obtain rfl : ipset = none := h.ipset
  obtain rfl : ipsetToLink = none := h.ipsetToLink
  have hfree := fun idx halloc => @World.Ready.free _ _ _ h idx halloc
  have hheld := @clearIfDisabled_new pre sys ⟨id, iface, true, startIdx, true, none, none⟩
    a.clear h.settled h.absent
  unfold World.enableLocked
  simp only [Bool.not_true, Bool.false_eq_true, if_false]
  split
  · exact .inr ⟨by simp, sys, none, rfl, .refl _, .inl ⟨rfl, rfl⟩, rfl, fun f => .refl _⟩
  · split
    · next k e hr =>
      rw [hr] at hheld
      refine .inr ⟨by simp, k.sys, none, rfl, fun name _ => congrFun hheld.sets name,
        .inl ⟨rfl, hheld.sets⟩, hheld.link, fun f => (hheld.parts f).2⟩
    · next k hr =>
      rw [hr] at hheld
      have hsets := @System.ipsetEnable_cases pre id k.sys a hback
      split
      · next s e hs =>
        rw [hs] at hsets
        obtain ⟨hoff, hsides, hlink, hgone⟩ := hsets
        have hoff : SetsOff pre id sys s := fun name hname =>
          (hoff name hname).trans (by rw [hheld.sets])
        refine .inr ⟨by simp, s, none, rfl, hoff, .inl ⟨rfl, hoff.eq fun f => ?_⟩,
          hlink.trans hheld.link, fun f => ?_⟩
        · exact (hgone (by simp) f).trans (h.sets f).symm
        · rw [hsides]
          exact (hheld.parts f).2
      · next s hs =>
        rw [hs] at hsets
        obtain ⟨hoff, hsides, hlink, -⟩ := hsets
        have hoff : SetsOff pre id sys s := fun name hname =>
          (hoff name hname).trans (by rw [hheld.sets])
        have hwork : Held { sys with sets := s.sets }
            (.new ⟨id, iface, true, startIdx, true, none, none⟩)
            (fun f p => p.Untouched pre id (sys.sides f) ∧ (sys.sides f).Same p.1) ⟨s, k.l⟩ := by
          refine ⟨rfl, hlink.trans hheld.link, hheld.l, fun f => ?_⟩
          show Part.Untouched pre id (sys.sides f) (s.sides f, k.l.fs f) ∧ _
          rw [Work.part, hsides]
          exact hheld.parts f
        have hnew := enable_new hwork rfl hfree h.absent hback
        split
        · next k' e hr =>
          rw [hr] at hnew
          rcases hnew with ⟨hnone, -⟩ | ⟨-, hdown⟩
          · cases hnone
          · refine .inr ⟨by simp, k'.sys, some true, rfl, fun name hname => ?_, .inr rfl,
              hdown.link, hdown.parts⟩
            rw [← hoff name hname]
            exact congrFun hdown.sets name
        · next k' hr =>
          rw [hr] at hnew
          rcases hnew with ⟨-, hon, hid, hfree', hkept⟩ | ⟨hnone, -⟩
          · refine .inl ⟨rfl, k'.l, rfl, hon, hid, hfree', fun name hname => ?_, rfl, hkept.link,
              rfl, hkept.parts⟩
            rw [← hoff name hname]
            exact congrFun hkept.sets name
          · exact absurd rfl hnone

/-- A failed `enable` changes nothing. -/
theorem World.Ready.enable {a : Answers} (h : w.Ready pre a.dump) (hback : a.rollback.Succeed)
    (hconf : w.rs.configured = true) :
    ((w.enable pre a).2 = none ∧ World.On pre w.sys w.rs (w.enable pre a).1) ∨
      ((w.enable pre a).2 ≠ none ∧ w.sys.Same (w.enable pre a).1.sys ∧
        (w.enable pre a).1.rs = w.rs) := by
  have hlocked := h.enableLocked hback hconf
  unfold World.enable
  split
  · next w' e hr =>
    rw [hr] at hlocked
    rcases hlocked with ⟨hnone, -⟩ | ⟨-, s, ipset, rfl, hoff, hsets, hlink, hsame⟩
    · cases hnone
    · refine .inr ⟨by simp, ?_⟩
      obtain ⟨sys, id, iface, configured, startIdx, enabled, ipset₀, ipsetToLink⟩ := w
      obtain rfl : configured = true := hconf
      obtain rfl : enabled = false := h.enabled
      obtain rfl : ipset₀ = none := h.ipset
      obtain rfl : ipsetToLink = none := h.ipsetToLink
      rcases hsets with ⟨rfl, hsets⟩ | rfl
      · exact ⟨⟨hsets, hlink, hsame⟩, rfl⟩
      · have hdestroy := @setsOff_destroyBoth pre id s a.rollback
        refine ⟨⟨hoff.destroyBoth h.sets hback, hdestroy.2.2.trans hlink, fun f => ?_⟩, rfl⟩
        show (sys.sides f).Same ((s.destroyBoth pre id a.rollback).1.sides f)
        rw [hdestroy.2.1]
        exact hsame f
  · next w' hr =>
    rw [hr] at hlocked
    rcases hlocked with hon | ⟨hnone, -⟩
    · exact .inl hon
    · exact absurd rfl hnone

/-- The link keeps what was made such that it can be taken back. -/
theorem World.On.onLink (h : w.On pre s₀ rs₀) (hconf : rs₀.configured = true)
    {act : Work → Work × Option Err}
    (hact : ∀ s₁ l k, Kept pre s₁ l k → Kept pre s₁ l (act k).1) :
    (w.onLink act).On pre s₀ rs₀ := by
  obtain ⟨sys, rs⟩ := w
  obtain ⟨l, rfl, hon, hid, hfree, hoff, hkept⟩ := h
  have hk := hact _ _ _ hkept
  have hsets : (act ⟨sys, l⟩).1.sys.sets = sys.sets := hk.sets
  have hl : (act ⟨sys, l⟩).1.l.enabled = l.enabled := by rw [hk.l]
  have honLink : World.onLink act ⟨sys, { rs₀ with
      enabled := true, ipset := some true, ipsetToLink := some l }⟩ =
      ⟨(act ⟨sys, l⟩).1.sys, { rs₀ with
        enabled := true, ipset := some true, ipsetToLink := some (act ⟨sys, l⟩).1.l }⟩ := by
    simp [World.onLink, hconf]
  rw [honLink]
  refine ⟨_, rfl, hl.trans hon, hk.id.trans hid, fun f => ?_, fun name hname => ?_, rfl, hk.link,
    rfl, fun f => ?_⟩
  · rw [hk.mark]
    exact hfree f
  · exact (congrFun hsets name).trans (hoff name hname)
  · rw [hk.mark, hk.id]
    exact hk.parts f

theorem Free.interface {s : System} {f : Family} {n : UInt32} (h : Free n (s.sides f))
    (link : Option LinkInfo) (ready : Family → Bool) :
    Free n ((s.interface link ready).sides f) where
  rules := h.rules
  routes k := by
    show ((s.sides f).routes n k).filter _ = none
    rw [h.routes]
    rfl

/-- What was made can be taken back after every event. -/
theorem World.On.step (h : w.On pre s₀ rs₀) (hconf : rs₀.configured = true) (e : Event) :
    (w.step e).On pre (s₀.step e) rs₀ := by
  cases e with
  | interface link ready =>
    obtain ⟨sys, rs⟩ := w
    obtain ⟨l, rfl, hon, hid, hfree, hoff, hkept⟩ := h
    refine ⟨l, rfl, hon, hid, fun f => (hfree f).interface link ready, hoff, rfl, rfl, rfl,
      fun f => ?_⟩
    have hpart := (hkept.parts f).interface link (ready f)
    have hlink : sys.link = s₀.link := hkept.link
    simp only [← hlink] at hpart
    show Part.Undoable pre l.id l.mark link ((s₀.interface link ready).sides f)
      ((sys.interface link ready).sides f, l.fs f)
    simp only [System.interface, ← hlink]
    exact hpart
  | linkUp a => exact h.onLink hconf fun _ _ _ hk => hk.onLinkUp a
  | addrChange a => exact h.onLink hconf fun _ _ _ hk => hk.onAddrChange a

theorem engine_step (s : System) (e : Event) (f : Family) :
    ((s.step e).sides f).engine = (s.sides f).engine := by
  cases e <;> rfl

theorem sets_step (s : System) (e : Event) : (s.step e).sets = s.sets := by
  cases e <;> rfl

/-- `disable` takes it back. -/
theorem World.On.disable {r : Removals} (hr : r.Succeed) (h : w.On pre s₀ rs₀) (hconf : rs₀.configured = true)
    (hoff : rs₀.enabled = false ∧ rs₀.ipset = none ∧ rs₀.ipsetToLink = none)
    (hsets : ∀ f, s₀.sets (Rebuild.ipsetName pre rs₀.id f) = none)
    (habsent : ∀ f, ∀ e ∈ (s₀.sides f).engine, Absent pre rs₀.id e.kernel) :
    (w.disable pre r).2 = none ∧ s₀.Same (w.disable pre r).1.sys ∧
      (w.disable pre r).1.rs = rs₀ := by
  obtain ⟨id, iface, configured, startIdx, enabled, ipset, ipsetToLink⟩ := rs₀
  obtain rfl : configured = true := hconf
  obtain ⟨rfl, rfl, rfl⟩ := hoff
  obtain ⟨sys, rs⟩ := w
  obtain ⟨l, rfl, hon, hid, hfree, hoff, hkept⟩ := h
  have hkept' : Kept pre { s₀ with sets := sys.sets } { l with enabled := false }
      ⟨sys, { l with enabled := false }⟩ := ⟨rfl, hkept.link, rfl, hkept.parts⟩
  obtain ⟨hnone, hdown⟩ := hkept'.teardown hfree (fun f e he => hid ▸ habsent f e he) hr
  generalize hk : Work.teardown pre r ⟨sys, { l with enabled := false }⟩ = k at hnone hdown
  have hdisable : World.disable pre r ⟨sys, ⟨id, iface, true, startIdx, true, some true, some l⟩⟩ =
      (⟨(k.1.sys.destroyBoth pre id r).1, ⟨id, iface, true, startIdx, false, none, none⟩⟩,
        k.2 <|> (k.1.sys.destroyBoth pre id r).2) := by
    simp [World.disable, Work.disable, hon, hk]
  have hdestroy := @setsOff_destroyBoth pre id k.1.sys r
  rw [hdisable, hnone, System.destroyBoth_none hr]
  refine ⟨rfl, ⟨?_, hdestroy.2.2.trans hdown.link, fun f => ?_⟩, rfl⟩
  · refine SetsOff.destroyBoth (fun name hname => ?_) hsets hr
    exact (congrFun hdown.sets name).trans (hoff name hname)
  · show (s₀.sides f).Same ((k.1.sys.destroyBoth pre id r).1.sides f)
    rw [hdestroy.2.1]
    exact hdown.parts f

/-! ## Whole runs -/

theorem World.On.run (h : w.On pre s₀ rs₀) (hconf : rs₀.configured = true) (events : List Event) :
    (events.foldl World.step w).On pre (events.foldl System.step s₀) rs₀ := by
  induction events generalizing w s₀ with
  | nil => exact h
  | cons e events ih => exact ih (h.step hconf e)

/-- A ruleset that is not configured follows no events. -/
theorem run_unconfigured {rs : Ruleset} (hconf : rs.configured = false) (s : System)
    (events : List Event) :
    events.foldl World.step ⟨s, rs⟩ = ⟨events.foldl System.step s, rs⟩ := by
  induction events generalizing s with
  | nil => rfl
  | cons e events ih =>
    have hstep : World.step ⟨s, rs⟩ e = ⟨s.step e, rs⟩ := by
      cases e <;> simp [World.step, World.onLink, System.step, hconf]
    rw [List.foldl_cons, hstep, ih, List.foldl_cons]

theorem engine_run (s : System) (events : List Event) (f : Family) :
    ((events.foldl System.step s).sides f).engine = (s.sides f).engine := by
  induction events generalizing s with
  | nil => rfl
  | cons e events ih => rw [List.foldl_cons, ih, engine_step]

theorem sets_run (s : System) (events : List Event) :
    (events.foldl System.step s).sets = s.sets := by
  induction events generalizing s with
  | nil => rfl
  | cons e events ih => rw [List.foldl_cons, ih, sets_step]

/-- A failed `enable` that rolls back changes nothing, and after one that succeeds `disable` leaves
the system as it would be had nothing but the events happened, if its removals succeed. -/
theorem enable_undone (pre : Prefixes) (a : Answers) (w : World) (h : w.Ready pre a.dump)
    (hback : a.rollback.Succeed) :
    ((w.enable pre a).2 ≠ none → w.sys.Same (w.enable pre a).1.sys ∧ (w.enable pre a).1.rs = w.rs) ∧
    ((w.enable pre a).2 = none → ∀ (events : List Event) (r : Removals), r.Succeed →
      ((events.foldl World.step (w.enable pre a).1).disable pre r).2 = none ∧
      (events.foldl System.step w.sys).Same
        ((events.foldl World.step (w.enable pre a).1).disable pre r).1.sys ∧
      ((events.foldl World.step (w.enable pre a).1).disable pre r).1.rs = w.rs) := by
  cases hconf : w.rs.configured with
  | true =>
    rcases h.enable hback hconf with ⟨hnone, hon⟩ | ⟨herr, hsame⟩
    · refine ⟨fun herr => absurd hnone herr, fun _ events r hr => ?_⟩
      refine (hon.run hconf events).disable hr hconf ⟨h.enabled, h.ipset, h.ipsetToLink⟩ ?_ ?_
      · rw [sets_run]
        exact h.sets
      · intro f
        rw [engine_run]
        exact h.absent f
    · exact ⟨fun _ => hsame, fun hnone => absurd hnone herr⟩
  | false =>
    obtain ⟨sys, id, iface, configured, startIdx, enabled, ipset, ipsetToLink⟩ := w
    obtain rfl : configured = false := hconf
    obtain rfl : enabled = false := h.enabled
    refine ⟨fun herr => absurd rfl herr, fun _ events r _ => ?_⟩
    have hrun : events.foldl World.step
        (World.enable pre a ⟨sys, id, iface, false, startIdx, false, ipset, ipsetToLink⟩).1 =
        ⟨events.foldl System.step sys, id, iface, false, startIdx, true, ipset, ipsetToLink⟩ :=
      run_unconfigured rfl sys events
    rw [hrun]
    exact ⟨rfl, ⟨rfl, rfl, fun f => .refl _⟩, rfl⟩

end Ruleset

def fresh : World where
  sys :=
    { sets := fun _ => none
      link := some ⟨7, true, true⟩
      sides := fun _ =>
        { engine := some ⟨GroupScript.baseEngine, []⟩
          rules := []
          routes := fun _ _ => none
          ready := true } }
  rs := ⟨⟨0xab, 0xcd, 0x01, 0x02⟩, ⟨str "wg0", by decide⟩, true, 1, false, none, none⟩

def removals : Removals :=
  ⟨fun _ => some .sys, fun _ => none, fun _ => none, fun _ => none, fun _ => none, fun _ => none,
    fun _ => none⟩

theorem succeed_removals : removals.Succeed := by constructor <;> intro f <;> rfl

def answers (restore : Option Err) : Answers where
  socket := none
  clear := removals
  create _ := none
  dump _ _ := .ok []
  ruleDel _ := some .sys
  rule _ := none
  blackhole _ := none
  link := none
  gateway _ := .ok none
  routeDel _ := some .sys
  route _ := none
  save _ := none
  restore
    | .v4 => none
    | .v6 => restore
  rollback := removals

theorem ready_fresh (restore : Option Err) :
    fresh.Ready Rebuild.defaultPrefixes (answers restore).dump where
  enabled := rfl
  ipset := rfl
  ipsetToLink := rfl
  sets _ := rfl
  absent f e he := by
    cases he
    exact ⟨fun _ _ _ => rfl, fun _ _ _ => List.not_mem_nil⟩
  settled f e he := by
    cases he
    refine @near_of_commit _ ⟨GroupScript.baseEngine, []⟩ _ ?_ ?_ ?_ [] [] rfl
    · show (engineOf (Engine.baseChains.map fun b => .registerPatch b.1 b.2)).WF
      exact wf_engineOf (by decide)
    · exact ⟨List.nodup_nil, fun _ h => absurd h List.not_mem_nil⟩
    · intro t c hb
      simp only [Rebuild.linkBases, List.mem_cons, Prod.mk.injEq, List.not_mem_nil, or_false] at hb
      rcases hb with ⟨rfl, rfl⟩ | ⟨rfl, rfl⟩ | ⟨rfl, rfl⟩ <;> exact ⟨[], rfl⟩
  shown f n hn := by
    refine absurd ⟨?_, ?_⟩ hn
    · exact List.not_mem_nil
    · exact fun _ => rfl
  hasFree :=
    ⟨1, by decide, by decide,
      @Netfilter.free_of_msgs (fun _ _ => []) 1 (by decide) fun _ _ _ h => nomatch h⟩

theorem enable_undone_fresh :
    ((fresh.enable Rebuild.defaultPrefixes (answers none)).2 = none ∧
      (([Event.linkUp (answers none)].foldl World.step
        (fresh.enable Rebuild.defaultPrefixes (answers none)).1).disable
          Rebuild.defaultPrefixes removals).1.rs = fresh.rs) ∧
    (fresh.enable Rebuild.defaultPrefixes (answers (some .sys))).2 = some .sys ∧
    fresh.sys.Same (fresh.enable Rebuild.defaultPrefixes (answers (some .sys))).1.sys := by
  have hok : (fresh.enable Rebuild.defaultPrefixes (answers none)).2 = none := by
    decide +kernel
  have herr : (fresh.enable Rebuild.defaultPrefixes (answers (some .sys))).2 = some .sys := by
    decide +kernel
  refine ⟨⟨hok, ?_⟩, herr, ?_⟩
  · have h := enable_undone Rebuild.defaultPrefixes (answers none) fresh (ready_fresh none)
      succeed_removals
    exact (h.2 hok _ _ succeed_removals).2.2
  · have h := enable_undone Rebuild.defaultPrefixes (answers (some .sys)) fresh (ready_fresh _)
      succeed_removals
    refine (h.1 ?_).1
    rw [herr]
    simp

end MagiTrickle.Enable
