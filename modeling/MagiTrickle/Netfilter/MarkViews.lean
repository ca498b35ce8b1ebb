import MagiTrickle.Netfilter.LinkViews
import MagiTrickle.Netfilter.MarkFresh

/-!
# The ip rules of links as a view

`MarkedGroups` has of the links of a daemon their numbers and ip rules. It is a
view of links as `Enable` has them, which share the rules, the routes and the
chains of one kernel: to every run of them belongs a run of the view
(`rules_run`). So what holds of the numbers in the view holds of the links
(`links_distinct`).
-/

namespace MagiTrickle.Enable

open Lib.Runs
open Netfilter (Family KernelSet IpRule LinkInfo FamilyState MarkedGroups MarkedLink RtMsg Dump
  DumpKind allocMarkTable)
open Rebuild (Prefixes)

/-! ## Links of one kernel -/

/-- Links, each with its interface, and what they share. -/
structure Links where
  sets : Bytes → Option (Σ f, KernelSet f)
  sides : Family → Side
  links : List (Option LinkInfo × IpsetToLink)

namespace Links

def work (s : Links) (x : Option LinkInfo × IpsetToLink) : Work := ⟨⟨s.sets, x.1, s.sides⟩, x.2⟩

/-- A link is made, or something happens to one. -/
inductive Event where
  | make (link : Option LinkInfo) (rs : Ruleset)
  | link (i : Nat) (e : LinkEvent)

def step (pre : Prefixes) (s : Links) : Event → Links
  | .make link rs => { s with links := s.links ++ [(link, .new rs)] }
  | .link i e =>
    match s.links[i]? with
    | none => s
    | some x =>
      let w := (s.work x).step pre e
      ⟨w.sys.sets, w.sys.sides, s.links.set i (w.sys.link, w.l)⟩

end Links

/-! ## What leaves the rules alone -/

/-- The rules of a family, and what is remembered of them, are as before. -/
structure Part.Quiet (p p' : Part) : Prop where
  engine : p'.1.engine.isSome = p.1.engine.isSome
  rules : p'.1.rules = p.1.rules
  added : p'.2.ruleAdded = p.2.ruleAdded

namespace Part

theorem Quiet.refl (p : Part) : p.Quiet p := ⟨rfl, rfl, rfl⟩

theorem Quiet.trans {p p' p'' : Part} (h : p.Quiet p') (h' : p'.Quiet p'') : p.Quiet p'' :=
  ⟨h'.engine.trans h.engine, h'.rules.trans h.rules, h'.added.trans h.added⟩

theorem quiet_insertBlackhole (p : Part) (n : UInt32) (answer : Option Err) :
    p.Quiet (p.insertBlackhole n answer).1 := by
  obtain ⟨⟨engine, rules, routes, ready⟩, fs⟩ := p
  cases engine with
  | none => exact .refl _
  | some e => cases answer <;> exact ⟨rfl, rfl, rfl⟩

theorem quiet_addIfaceRoute (p : Part) (n : UInt32) (li : LinkInfo) (answer : Option Err)
    (gw : Option Bytes) : p.Quiet (p.addIfaceRoute n li answer gw).1 := by
  obtain ⟨⟨engine, rules, routes, ready⟩, fs⟩ := p
  unfold addIfaceRoute
  cases answer with
  | some e => exact .refl _
  | none => dsimp only; split_ifs <;> exact ⟨rfl, rfl, rfl⟩

theorem quiet_updateIfaceRoute (p : Part) (n : UInt32) (li : LinkInfo)
    (lookup : Except Err (Option Bytes)) (del answer : Option Err) :
    p.Quiet (p.updateIfaceRoute n li lookup del answer).1 := by
  obtain ⟨s, fs⟩ := p
  unfold updateIfaceRoute
  dsimp only
  generalize (if li.pointToPoint then none else lookup.toOption.getD none) = gw
  split_ifs
  · exact .refl _
  · exact .refl _
  · cases del with
    | some e => exact .refl _
    | none =>
      have hdel : Quiet (s, fs) ({ s with routes := routeDelIface s.routes n li.ifindex fs.gw },
          { fs with ifaceRoutePresent := false }) := ⟨rfl, rfl, rfl⟩
      exact hdel.trans (quiet_addIfaceRoute _ n li answer gw)
  · exact quiet_addIfaceRoute _ n li answer gw
  · exact quiet_addIfaceRoute _ n li answer gw

theorem quiet_insertIptablesRules (p : Part) (pre : Prefixes) (l : IpsetToLink) (f : Family)
    (save restore : Option Err) : p.Quiet (p.insertIptablesRules pre l f save restore).1 := by
  obtain ⟨⟨engine, rules, routes, ready⟩, fs⟩ := p
  cases engine <;> exact ⟨rfl, rfl, rfl⟩

theorem quiet_deleteIptablesRules (p : Part) (pre : Prefixes) (l : IpsetToLink)
    (save restore : Option Err) : p.Quiet (p.deleteIptablesRules pre l save restore).1 := by
  obtain ⟨⟨engine, rules, routes, ready⟩, fs⟩ := p
  cases engine <;> exact ⟨rfl, rfl, rfl⟩

theorem quiet_deleteIfaceRoute (p : Part) (n : UInt32) (link : Option LinkInfo)
    (lookup answer : Option Err) : p.Quiet (p.deleteIfaceRoute n link lookup answer).1 := by
  obtain ⟨⟨engine, rules, routes, ready⟩, ⟨rule, blackhole, present, gw⟩⟩ := p
  cases present <;> exact ⟨rfl, rfl, rfl⟩

theorem quiet_deleteBlackhole (p : Part) (n : UInt32) (answer : Option Err) :
    p.Quiet (p.deleteBlackhole n answer).1 := by
  obtain ⟨⟨engine, rules, routes, ready⟩, ⟨rule, blackhole, present, gw⟩⟩ := p
  cases blackhole <;> exact ⟨rfl, rfl, rfl⟩

end Part

/-- Of a link the rules are as before. -/
abbrev Work.Quiet (w w' : Work) : Prop := Held w.sys w.l (fun f p => (w.part f).Quiet p) w'

section Quiet

variable {w w' : Work}

theorem Work.Quiet.refl (w : Work) : w.Quiet w := ⟨rfl, rfl, rfl, fun _ => .refl _⟩

theorem Work.Quiet.inTurn (h : w.Quiet w') {act : Family → Part → Part × Option Err}
    (hact : ∀ f (p : Part), p.Quiet (act f p).1) : w.Quiet (w'.inTurn act).1 :=
  Held.inTurn h fun f p hp => hp.trans (hact f p)

theorem Work.Quiet.updateRoutes (h : w.Quiet w') (a : Answers) (li : LinkInfo) :
    w.Quiet (w'.updateRoutes a li).1 :=
  h.inTurn fun _ p => Part.quiet_updateIfaceRoute p _ li _ _ _

theorem Work.Quiet.insertIpRoute (h : w.Quiet w') (a : Answers) :
    w.Quiet (w'.insertIpRoute a).1 := by
  refine Held.andThen (h.inTurn fun _ p => Part.quiet_insertBlackhole p _ _) fun w hw => ?_
  unfold Work.insertIfaceRoute
  split
  · exact hw
  · split
    · exact hw
    · split
      · exact hw
      · split
        · exact Work.Quiet.updateRoutes hw a _
        · exact hw

theorem Work.quiet_onLinkUp (w : Work) (a : Answers) : w.Quiet (w.onLinkUp a).1 := by
  unfold Work.onLinkUp
  split
  · exact (Work.Quiet.refl w).insertIpRoute a
  · exact .refl w

theorem Work.quiet_onAddrChange (w : Work) (a : Answers) : w.Quiet (w.onAddrChange a).1 := by
  unfold Work.onAddrChange
  split
  · exact .refl w
  · split
    · exact .refl w
    · cases w.sys.link with
      | none => exact .refl w
      | some li => exact (Work.Quiet.refl w).updateRoutes a li

end Quiet

/-! ## Adding and deleting the rules -/

/-- The rules of a link, as the view has them. -/
structure Work.Rules (ipt : Family → Bool) (m : MarkedGroups.Work) (w : Work) : Prop where
  engine : ∀ f, (w.sys.sides f).engine.isSome = ipt f
  rules : ∀ f, (w.sys.sides f).rules = m.rules f
  added : ∀ f, (w.l.fs f).ruleAdded = m.ruleAdded f

/-- The answers as the view has them. -/
def Answers.marked (a : Answers) (later : Option Err) : Netfilter.Answers where
  dump kind f := match a.dump kind f with
    | .error e => some e
    | .ok _ => none
  del f := (a.ruleDel f).isSome
  add := a.rule
  later := later
  undo f := (a.rollback.rule f).isSome

/-- What a dump lists besides the rules. -/
def Answers.others (a : Answers) (rules : Family → List IpRule) :
    DumpKind → Family → List RtMsg := fun kind f =>
  match a.dump kind f with
  | .error _ => []
  | .ok msgs => match kind with
    | .rules => msgs.drop (rules f).length
    | .routes => msgs

section Rules

variable {ipt : Family → Bool} {m : MarkedGroups.Work} {w w' : Work} {a : Answers}

theorem Work.Rules.of_quiet (h : w.Rules ipt m) (hw : w.Quiet w') : w'.Rules ipt m :=
  ⟨fun f => (hw.parts f).engine.trans (h.engine f), fun f => (hw.parts f).rules.trans (h.rules f),
    fun f => (hw.parts f).added.trans (h.added f)⟩

theorem Work.Rules.set (h : w.Rules ipt m) {f : Family} {p : Part} {rules : List IpRule}
    {added : Bool} (hengine : p.1.engine.isSome = ipt f) (hrules : p.1.rules = rules)
    (hadded : p.2.ruleAdded = added) : (w.setPart f p).Rules ipt
      ⟨Function.update m.rules f rules, Function.update m.ruleAdded f added⟩ := by
  refine ⟨fun g => ?_, fun g => ?_, fun g => ?_⟩ <;> by_cases hg : g = f
  · subst hg
    simpa [Work.setPart] using hengine
  · simpa [Work.setPart, hg] using h.engine g
  · subst hg
    simpa [Work.setPart] using hrules
  · simpa [Work.setPart, hg] using h.rules g
  · subst hg
    simpa [Work.setPart] using hadded
  · simpa [Work.setPart, hg] using h.added g

theorem Work.Rules.insertFamily (h : w.Rules ipt m) (n : UInt32) (later : Option Err) (f : Family) :
    (w.on f (Part.insertIpRule n (a.ruleDel f) (a.rule f))).1.Rules ipt
        (MarkedGroups.insertFamily ipt (a.marked later) ⟨n, n⟩ m f).1 ∧
      (w.on f (Part.insertIpRule n (a.ruleDel f) (a.rule f))).2 =
        (MarkedGroups.insertFamily ipt (a.marked later) ⟨n, n⟩ m f).2 := by
  have hengine := h.engine f
  have hsame : ∀ rules, Work.Rules ipt ⟨Function.update m.rules f rules, m.ruleAdded⟩
      (w.setPart f ({ w.sys.sides f with rules := rules }, w.l.fs f)) := by
    intro rules
    have hset := h.set (f := f) (p := ({ w.sys.sides f with rules := rules }, w.l.fs f)) hengine rfl
      (h.added f)
    rwa [Function.update_eq_self] at hset
  unfold MarkedGroups.insertFamily Work.on Part.insertIpRule Work.part
  cases hipt : ipt f with
  | false =>
    have hnone : (w.sys.sides f).engine.isNone = true := by
      rw [← Option.not_isSome, hengine, hipt]
      rfl
    simp only [hnone, ↓reduceIte, Bool.false_eq_true]
    simpa [Work.setPart] using h
  | true =>
    have hnone : (w.sys.sides f).engine.isNone = false := by
      rw [← Option.not_isSome, hengine, hipt]
      rfl
    have hdel : Part.ruleDel (w.sys.sides f).rules ⟨n, n⟩ (a.ruleDel f) =
        if (a.marked later).del f then m.rules f else (m.rules f).erase ⟨n, n⟩ := by
      rw [← h.rules f]
      rfl
    simp only [hnone, Bool.false_eq_true, ↓reduceIte, hdel]
    generalize (if (a.marked later).del f then m.rules f else (m.rules f).erase ⟨n, n⟩) = rules
    rw [show (a.marked later).add f = a.rule f from rfl]
    cases a.rule f with
    | some e => exact ⟨hsame rules, rfl⟩
    | none =>
      dsimp only
      split_ifs
      · exact ⟨hsame rules, rfl⟩
      · rw [Function.update_idem]
        exact ⟨h.set hengine rfl rfl, rfl⟩

theorem Work.Rules.insertIpRule (h : w.Rules ipt m) (n : UInt32) (later : Option Err) :
    (w.inTurn fun f => Part.insertIpRule n (a.ruleDel f) (a.rule f)).1.Rules ipt
        (MarkedGroups.insertIpRule ipt (a.marked later) ⟨n, n⟩ m).1 ∧
      (w.inTurn fun f => Part.insertIpRule n (a.ruleDel f) (a.rule f)).2 =
        (MarkedGroups.insertIpRule ipt (a.marked later) ⟨n, n⟩ m).2 :=
  untilErr_sim (R := fun (w : Work) m => w.Rules ipt m)
    (fun _ _ f hm => hm.insertFamily n later f) h _

/-- The rules of a family after `deleteIpRule` of the view. -/
def Part.Dropped (n : UInt32) (answer : Option Err) (p p' : Part) : Prop :=
  p'.1.engine.isSome = p.1.engine.isSome ∧
    p'.1.rules = (if p.2.ruleAdded && !answer.isSome then p.1.rules.erase ⟨n, n⟩
      else p.1.rules) ∧ p'.2.ruleAdded = false

theorem Part.dropped_deleteIpRule (p : Part) (n : UInt32) (answer : Option Err) :
    p.Dropped n answer (p.deleteIpRule n answer).1 := by
  obtain ⟨⟨engine, rules, routes, ready⟩, ⟨rule, blackhole, present, gw⟩⟩ := p
  cases rule with
  | false => exact ⟨rfl, rfl, rfl⟩
  | true => cases answer <;> exact ⟨rfl, rfl, rfl⟩

/-- What `teardown` does to the rules. -/
theorem Work.teardown_dropped (pre : Prefixes) (r : Removals) (w : Work) :
    Held w.sys w.l (fun f p => (w.part f).Dropped w.l.mark (r.rule f) p) (w.teardown pre r).1 := by
  have hroute : w.Quiet (w.deleteIpRoute r).1 := by
    unfold Work.deleteIpRoute
    refine Held.also ((Work.Quiet.refl w).both (J := fun f p => (w.part f).Quiet p) _
      fun f p hp => hp.trans (Part.quiet_deleteIfaceRoute p _ _ _ _)) fun w' hw' => ?_
    exact hw'.both _ fun f p hp => hp.trans (Part.quiet_deleteBlackhole p _ _)
  have hrule : Held w.sys w.l (fun f p => (w.part f).Dropped w.l.mark (r.rule f) p)
      ((w.deleteIpRoute r).1.deleteIpRule r).1 := by
    unfold Work.deleteIpRule
    rw [hroute.mark]
    refine hroute.both _ fun f p hp => ?_
    obtain ⟨hengine, hrules, hadded⟩ := p.dropped_deleteIpRule w.l.mark (r.rule f)
    refine ⟨hengine.trans hp.engine, ?_, hadded⟩
    rw [hrules, hp.rules, hp.added]
  unfold Work.teardown Work.also
  dsimp only
  refine hrule.both _ fun f p hp => ?_
  have hquiet := p.quiet_deleteIptablesRules pre w.l (r.save f) (r.restore f)
  exact ⟨hquiet.engine.trans hp.1, hquiet.rules.trans hp.2.1, hquiet.added.trans hp.2.2⟩

theorem Work.Rules.teardown (h : w.Rules ipt m) (pre : Prefixes) (r : Removals) :
    (w.teardown pre r).1.Rules ipt
      (MarkedGroups.deleteIpRule (fun f => (r.rule f).isSome) ⟨w.l.mark, w.l.mark⟩ m) := by
  have hdropped := Work.teardown_dropped pre r w
  refine ⟨fun f => (hdropped.parts f).1.trans (h.engine f), fun f => ?_,
    fun f => (hdropped.parts f).2.2⟩
  rw [show ((w.teardown pre r).1.sys.sides f).rules = _ from (hdropped.parts f).2.1]
  show (if (w.l.fs f).ruleAdded && _ then (w.sys.sides f).rules.erase _
    else (w.sys.sides f).rules) = _
  rw [h.rules f, h.added f]
  rfl

/-! ## Enabling and disabling -/

/-- The link as the view has it. -/
def IpsetToLink.marked (l : IpsetToLink) : Option MarkedLink :=
  if l.enabled then some ⟨l.mark, fun f => (l.fs f).ruleAdded⟩ else none

/-- The link and its rules, in a view of the group with number `i`. -/
structure Work.Marked (v : MarkedGroups) (i : Nat) (w : Work) : Prop where
  engine : ∀ f, (w.sys.sides f).engine.isSome = v.ipt f
  rules : ∀ f, (w.sys.sides f).rules = v.rules f
  group : v.groups[i]? = some w.l.marked
  startIdx : w.l.startIdx = v.startIdx
  off : w.l.enabled = false → ∀ f, (w.l.fs f).ruleAdded = false

variable {v : MarkedGroups} {i : Nat}

theorem set_same {α : Type} {xs : List α} {x : α} (h : xs[i]? = some x) : xs.set i x = xs := by
  obtain ⟨hi, rfl⟩ := List.getElem?_eq_some_iff.mp h
  exact List.set_getElem_self hi

theorem getElem?_set_of_some {α : Type} {xs : List α} {x y : α} (h : xs[i]? = some x) :
    (xs.set i y)[i]? = some y := by
  obtain ⟨hi, -⟩ := List.getElem?_eq_some_iff.mp h
  rw [List.getElem?_set_self hi]

theorem Work.Marked.of_quiet (h : w.Marked v i) (hw : w.Quiet w') : w'.Marked v i ∧
    w'.l.marked = w.l.marked := by
  have hmarked : w'.l.marked = w.l.marked := by
    have hadded : (fun f => (w'.l.fs f).ruleAdded) = fun f => (w.l.fs f).ruleAdded :=
      funext fun f => (hw.parts f).added
    unfold IpsetToLink.marked
    rw [hw.mark, hadded, show w'.l.enabled = w.l.enabled by rw [hw.l]]
  have hrules := Work.Rules.of_quiet (m := ⟨v.rules, fun f => (w.l.fs f).ruleAdded⟩)
    ⟨h.engine, h.rules, fun _ => rfl⟩ hw
  refine ⟨⟨hrules.engine, hrules.rules, hmarked ▸ h.group, ?_, fun hoff f => ?_⟩, hmarked⟩
  · rw [hw.l]
    exact h.startIdx
  · rw [hrules.added f]
    exact h.off (by rw [hw.l] at hoff; exact hoff) f

theorem Work.Rules.torn (h : w.Rules v.ipt m) (hoff : w.l.enabled = false)
    {g : Option MarkedLink} (hi : v.groups[i]? = some g) (hstart : w.l.startIdx = v.startIdx)
    (pre : Prefixes) (r : Removals) : (w.teardown pre r).1.Marked { v with
      rules := (MarkedGroups.deleteIpRule (fun f => (r.rule f).isSome) ⟨w.l.mark, w.l.mark⟩ m).rules
      groups := v.groups.set i none } i := by
  have htorn := h.teardown pre r
  have hl := (Work.teardown_dropped pre r w).l
  have hoff' : (w.teardown pre r).1.l.enabled = false := by rw [hl]; exact hoff
  refine ⟨htorn.engine, htorn.rules, ?_, ?_, fun _ => htorn.added⟩
  · rw [IpsetToLink.marked, hoff']
    exact getElem?_set_of_some hi
  · rw [hl]
    exact hstart

theorem Work.Marked.disable (h : w.Marked v i) (pre : Prefixes) (r : Removals) :
    (w.disable pre r).1.Marked (v.disable i fun f => (r.rule f).isSome) i := by
  have hgroup := h.group
  unfold Work.disable MarkedGroups.disable
  unfold IpsetToLink.marked at hgroup
  cases hon : w.l.enabled with
  | false =>
    rw [hon] at hgroup
    rw [hgroup]
    exact h
  | true =>
    rw [hon] at hgroup
    rw [hgroup]
    have hrules : Work.Rules v.ipt ⟨v.rules, fun f => (w.l.fs f).ruleAdded⟩
        { w with l := { w.l with enabled := false } } := ⟨h.engine, h.rules, fun _ => rfl⟩
    exact hrules.torn rfl hgroup h.startIdx pre r

/-- The steps of `enable` after the ip rules leave them alone. -/
theorem Work.quiet_rest (w : Work) (pre : Prefixes) (a : Answers) :
    w.Quiet (Work.andThen (w.insertIpRoute a) fun w =>
      w.inTurn fun f => Part.insertIptablesRules pre w.l f (a.save f) (a.restore f)).1 :=
  Held.andThen ((Work.Quiet.refl w).insertIpRoute a) fun _ hw =>
    Work.Quiet.inTurn hw fun _ p => Part.quiet_insertIptablesRules p pre _ _ _ _

theorem Work.Rules.finished (h : w.Rules v.ipt m) (hi : v.groups[i]? = some none)
    (hstart : w.l.startIdx = v.startIdx) :
    Work.Marked { v with
      rules := m.rules
      groups := v.groups.set i (some ⟨w.l.mark, m.ruleAdded⟩) } i
      { w with l := { w.l with enabled := true } } := by
  refine ⟨h.engine, h.rules, ?_, hstart, fun hoff => (nomatch hoff)⟩
  have hadded : (fun f => (w.l.fs f).ruleAdded) = m.ruleAdded := funext h.added
  show _ = some (some (MarkedLink.mk _ _))
  rw [hadded]
  exact getElem?_set_of_some hi

/-- The steps of `enable` after the choice of a number. -/
theorem Work.Rules.setUp (h : w.Rules v.ipt ⟨v.rules, fun _ => false⟩)
    (hoff : w.l.enabled = false) (hi : v.groups[i]? = some none)
    (hstart : w.l.startIdx = v.startIdx) (hdump : ∀ later, v.dump (a.marked later).dump = a.dump)
    (halloc : allocMarkTable a.dump v.startIdx = .ok w.l.mark) (pre : Prefixes) :
    ∃ later, (Work.finish pre a.rollback (w.setUp pre a)).1.Marked
      (v.enable i (a.marked later)) i := by
  refine ⟨(w.setUp pre a).2, ?_⟩
  have hins := h.insertIpRule (a := a) w.l.mark (w.setUp pre a).2
  have hheld : Held w.sys w.l (fun _ _ => True)
      (w.inTurn fun f => Part.insertIpRule w.l.mark (a.ruleDel f) (a.rule f)).1 :=
    Held.inTurn ⟨rfl, rfl, rfl, fun _ => trivial⟩ fun _ _ _ => trivial
  have hsame : ∀ rules, { v with rules := rules, groups := v.groups.set i none } =
      { v with rules := rules } := fun rules => by rw [set_same hi]
  unfold MarkedGroups.enable
  simp only [hi, hdump, halloc]
  rw [show (a.marked (w.setUp pre a).2).later = (w.setUp pre a).2 from rfl]
  unfold Work.setUp at hins ⊢
  generalize (w.inTurn fun f => Part.insertIpRule w.l.mark (a.ruleDel f) (a.rule f)) = r at *
  obtain ⟨w₁, e₁⟩ := r
  have hmark : w₁.l.mark = w.l.mark := hheld.mark
  have hl : w₁.l.enabled = false ∧ w₁.l.startIdx = v.startIdx := by
    rw [hheld.l]
    exact ⟨hoff, hstart⟩
  rw [← hmark] at hins ⊢
  cases e₁ with
  | some e =>
    dsimp only [Work.andThen] at hins ⊢
    generalize MarkedGroups.insertIpRule v.ipt _ _ _ = r' at *
    obtain ⟨m, e'⟩ := r'
    obtain ⟨hrules, rfl⟩ := hins
    dsimp only
    rw [← hsame]
    exact hrules.torn hl.1 hi hl.2 pre a.rollback
  | none =>
    have hquiet := w₁.quiet_rest pre a
    rw [show ∀ next, Work.andThen (w₁, none) next = next w₁ from fun _ => rfl] at hins ⊢
    dsimp only at hins ⊢
    generalize MarkedGroups.insertIpRule v.ipt _ _ _ = r' at *
    obtain ⟨m, e'⟩ := r'
    obtain ⟨hrules, rfl⟩ := hins
    replace hrules := Work.Rules.of_quiet hrules hquiet
    have hl₂ := hquiet.l
    have hmark₂ := hquiet.mark
    dsimp only at hquiet ⊢
    generalize Work.andThen (w₁.insertIpRoute a) _ = r at *
    obtain ⟨w₂, e₂⟩ := r
    have hl : w₂.l.enabled = false ∧ w₂.l.startIdx = v.startIdx := by
      rw [hl₂]
      exact hl
    rw [← hmark₂]
    cases e₂ with
    | some e =>
      dsimp only
      rw [← hsame]
      exact hrules.torn hl.1 hi hl.2 pre a.rollback
    | none => exact hrules.finished hi hl.2

/-- Where the dump of the view is that of the answers. -/
theorem Work.Marked.enable (h : w.Marked v i) (pre : Prefixes)
    (hdump : ∀ later, v.dump (a.marked later).dump = a.dump) :
    ∃ later, (w.enable pre a).1.Marked (v.enable i (a.marked later)) i := by
  have hgroup := h.group
  unfold Work.enable
  unfold IpsetToLink.marked at hgroup
  cases hon : w.l.enabled with
  | true =>
    rw [hon] at hgroup
    unfold MarkedGroups.enable
    rw [hgroup]
    exact ⟨none, h⟩
  | false =>
    rw [hon] at hgroup
    rw [show allocMarkTable a.dump w.l.startIdx = allocMarkTable a.dump v.startIdx by
      rw [h.startIdx]]
    cases halloc : allocMarkTable a.dump v.startIdx with
    | error e =>
      refine ⟨none, ?_⟩
      unfold MarkedGroups.enable
      simp only [hgroup, Bool.false_eq_true, ↓reduceIte, hdump, halloc]
      exact h
    | ok idx =>
      have hrules : Work.Rules v.ipt ⟨v.rules, fun _ => false⟩
          { w with l := { w.l with mark := idx } } := ⟨h.engine, h.rules, h.off hon⟩
      obtain ⟨later, hmarked⟩ :=
        hrules.setUp (a := a) hon hgroup h.startIdx hdump halloc pre
      exact ⟨later, hmarked⟩

end Rules

/-! ## Runs -/

namespace Links

/-- The links as the view has them. -/
structure Marks (v : MarkedGroups) (s : Links) : Prop where
  engine : ∀ f, (s.sides f).engine.isSome = v.ipt f
  rules : ∀ f, (s.sides f).rules = v.rules f
  groups : v.groups = s.links.map fun x => x.2.marked
  startIdx : ∀ x ∈ s.links, x.2.startIdx = v.startIdx
  off : ∀ x ∈ s.links, x.2.enabled = false → ∀ f, (x.2.fs f).ruleAdded = false

/-- New links have the start index of the daemon, and a dump lists the rules that are there. -/
def Listed (startIdx : UInt32) (s : Links) : Event → Prop
  | .make _ rs => rs.startIdx = startIdx
  | .link _ (.enable a) => ∀ f msgs, a.dump .rules f = .ok msgs →
      ∃ others, msgs = (s.sides f).rules.map IpRule.msg ++ others
  | _ => True

def HasFree (startIdx : UInt32) (s : Links) : Event → Prop
  | .link _ (.enable a) => (∃ f, (s.sides f).engine.isSome) ∧ a.dump.HasFree startIdx
  | _ => True

/-- What an event is to the view: before a dump the kernel may have changed what else it lists. -/
inductive Event.Views : Event → List MarkedGroups.Event → Prop
  | make (link rs) : Views (.make link rs) [.make]
  | interface (i link ready) : Views (.link i (.interface link ready)) []
  | enable (i a others later) :
      Views (.link i (.enable a)) [.others others, .enable i (a.marked later)]
  | disable (i r) : Views (.link i (.disable r)) [.disable i fun f => (r.rule f).isSome]
  | linkUp (i a) : Views (.link i (.linkUp a)) []
  | addrChange (i a) : Views (.link i (.addrChange a)) []

section Runs

variable {v : MarkedGroups} {s : Links} {i : Nat} {x : Option LinkInfo × IpsetToLink}

theorem Marks.marked (h : s.Marks v) (hx : s.links[i]? = some x) : (s.work x).Marked v i := by
  refine ⟨h.engine, h.rules, ?_, h.startIdx x (List.mem_of_getElem? hx),
    h.off x (List.mem_of_getElem? hx)⟩
  rw [h.groups, List.getElem?_map, hx]
  rfl

theorem Marks.of_marked (h : s.Marks v) (hx : s.links[i]? = some x) {v' : MarkedGroups} {w : Work}
    (hw : w.Marked v' i) (hstart : v'.startIdx = v.startIdx)
    (hgroups : ∃ g, v'.groups = v.groups.set i g) :
    Marks v' ⟨w.sys.sets, w.sys.sides, s.links.set i (w.sys.link, w.l)⟩ := by
  have hlt : i < s.links.length := (List.getElem?_eq_some_iff.mp hx).1
  obtain ⟨g, hg⟩ := hgroups
  have hmarked : g = w.l.marked := by
    have hgroup := hw.group
    rw [hg, h.groups, List.getElem?_set_self (by simpa using hlt)] at hgroup
    exact Option.some.inj hgroup
  refine ⟨hw.engine, hw.rules, ?_, fun y hy => ?_, fun y hy => ?_⟩
  · rw [hg, h.groups, hmarked, List.map_set]
  · rcases List.mem_or_eq_of_mem_set hy with hy | rfl
    · exact (h.startIdx y hy).trans hstart.symm
    · exact hw.startIdx
  · rcases List.mem_or_eq_of_mem_set hy with hy | rfl
    · exact h.off y hy
    · exact hw.off

theorem disable_frame {g : Option MarkedLink} (hi : v.groups[i]? = some g) (undo : Family → Bool) :
    (v.disable i undo).startIdx = v.startIdx ∧
      ∃ g, (v.disable i undo).groups = v.groups.set i g := by
  unfold MarkedGroups.disable
  split
  · exact ⟨rfl, none, rfl⟩
  · exact ⟨rfl, g, (set_same hi).symm⟩

theorem enable_frame {g : Option MarkedLink} (hi : v.groups[i]? = some g)
    (a : Netfilter.Answers) : (v.enable i a).startIdx = v.startIdx ∧
      ∃ g, (v.enable i a).groups = v.groups.set i g := by
  have hsame := (set_same hi).symm
  unfold MarkedGroups.enable
  split
  · split
    · exact ⟨rfl, g, hsame⟩
    · dsimp only
      split
      · exact ⟨rfl, g, hsame⟩
      · split
        · exact ⟨rfl, g, hsame⟩
        · exact ⟨rfl, _, rfl⟩
  · exact ⟨rfl, g, hsame⟩

theorem dump_others {a : Answers} (h : s.Marks v) (ha : ∀ f msgs, a.dump .rules f = .ok msgs →
      ∃ others, msgs = (s.sides f).rules.map IpRule.msg ++ others) (later : Option Err) :
    ({ v with others := a.others v.rules } : MarkedGroups).dump (a.marked later).dump =
      a.dump := by
  funext kind f
  unfold MarkedGroups.dump Answers.marked Answers.others
  dsimp only
  cases hdump : a.dump kind f with
  | error e => rfl
  | ok msgs =>
    cases kind with
    | routes => simp only [hdump]
    | rules =>
      obtain ⟨others, rfl⟩ := ha f msgs hdump
      simp [hdump, h.rules f]

theorem step_of_none {pre : Prefixes} (hi : s.links[i]? = none) (e : LinkEvent) :
    s.step pre (.link i e) = s := by
  unfold Links.step
  simp only [hi]

theorem step_of_some {pre : Prefixes} (hi : s.links[i]? = some x) (e : LinkEvent) :
    s.step pre (.link i e) = ⟨((s.work x).step pre e).sys.sets, ((s.work x).step pre e).sys.sides,
      s.links.set i (((s.work x).step pre e).sys.link, ((s.work x).step pre e).l)⟩ := by
  unfold Links.step
  simp only [hi]

theorem Marks.step (h : s.Marks v) (pre : Prefixes) {e : Event} (he : s.Listed v.startIdx e) :
    ∃ es, e.Views es ∧ (s.step pre e).Marks (es.foldl MarkedGroups.step v) ∧
      (es.foldl MarkedGroups.step v).startIdx = v.startIdx ∧
      (s.HasFree v.startIdx e → Guarded MarkedGroups.Admits MarkedGroups.step v es) := by
  have hadmits : ∀ {i : Nat} {a : Answers} (later : Option Err),
      s.Listed v.startIdx (.link i (.enable a)) → s.HasFree v.startIdx (.link i (.enable a)) →
      Guarded MarkedGroups.Admits MarkedGroups.step v
        [.others (a.others v.rules), .enable i (a.marked later)] := by
    intro i a later hlisted hfree
    obtain ⟨⟨f, hf⟩, hfree⟩ := hfree
    refine ⟨trivial, ⟨⟨f, (h.engine f).symm.trans hf⟩, ?_⟩, trivial⟩
    show Dump.HasFree (MarkedGroups.dump { v with others := a.others v.rules } _) _
    rw [dump_others h hlisted]
    exact hfree
  have hsame : ∀ {w' : Work} {i : Nat} {x : Option LinkInfo × IpsetToLink},
      s.links[i]? = some x → (s.work x).Quiet w' →
      Marks v ⟨w'.sys.sets, w'.sys.sides, s.links.set i (w'.sys.link, w'.l)⟩ := by
    intro w' i x hx hquiet
    obtain ⟨hmarked, -⟩ := (h.marked hx).of_quiet hquiet
    exact h.of_marked hx hmarked rfl ⟨x.2.marked, (set_same (h.marked hx).group).symm⟩
  cases e with
  | make link rs =>
    refine ⟨_, .make link rs, ⟨h.engine, h.rules, ?_, fun y hy => ?_, fun y hy => ?_⟩, rfl,
      fun _ => ⟨trivial, trivial⟩⟩
    · show v.groups ++ [none] = (s.links ++ [(link, IpsetToLink.new rs)]).map _
      rw [h.groups, List.map_append]
      rfl
    · rcases List.mem_append.mp hy with hy | hy
      · exact h.startIdx y hy
      · obtain rfl := List.mem_singleton.mp hy
        exact he
    · rcases List.mem_append.mp hy with hy | hy
      · exact h.off y hy
      · obtain rfl := List.mem_singleton.mp hy
        exact fun _ _ => rfl
  | link i e =>
    cases hx : s.links[i]? with
    | none =>
      rw [step_of_none hx]
      have hnone : v.groups[i]? = none := by
        rw [h.groups, List.getElem?_map, hx]
        rfl
      cases e with
      | interface link ready => exact ⟨_, .interface i link ready, h, rfl, fun _ => trivial⟩
      | enable a =>
        have hstay : MarkedGroups.enable { v with others := a.others v.rules } i (a.marked none) =
            { v with others := a.others v.rules } := by
          unfold MarkedGroups.enable
          rw [hnone]
        refine ⟨_, .enable i a (a.others v.rules) none, ?_, ?_, hadmits none he⟩
        · show Marks (MarkedGroups.enable { v with others := a.others v.rules } i (a.marked none)) s
          rw [hstay]
          exact ⟨h.engine, h.rules, h.groups, h.startIdx, h.off⟩
        · exact (congrArg MarkedGroups.startIdx hstay : _)
      | disable r =>
        have hstay : v.disable i (fun f => (r.rule f).isSome) = v := by
          unfold MarkedGroups.disable
          rw [hnone]
        refine ⟨_, .disable i r, ?_, congrArg MarkedGroups.startIdx hstay,
          fun _ => ⟨trivial, trivial⟩⟩
        show Marks (v.disable i fun f => (r.rule f).isSome) s
        rw [hstay]
        exact h
      | linkUp a => exact ⟨_, .linkUp i a, h, rfl, fun _ => trivial⟩
      | addrChange a => exact ⟨_, .addrChange i a, h, rfl, fun _ => trivial⟩
    | some x =>
      rw [step_of_some hx]
      have hmarked := h.marked hx
      cases e with
      | interface link ready =>
        have hafter : Work.Marked v i
            { s.work x with sys := (s.work x).sys.interface link ready } :=
          ⟨hmarked.engine, hmarked.rules, hmarked.group, hmarked.startIdx, hmarked.off⟩
        exact ⟨_, .interface i link ready,
          h.of_marked hx hafter rfl ⟨x.2.marked, (set_same hmarked.group).symm⟩, rfl,
          fun _ => trivial⟩
      | enable a =>
        have hothers : Work.Marked { v with others := a.others v.rules } i (s.work x) :=
          ⟨hmarked.engine, hmarked.rules, hmarked.group, hmarked.startIdx, hmarked.off⟩
        obtain ⟨later, hafter⟩ := hothers.enable pre (dump_others h he)
        obtain ⟨hstart, hgroups⟩ := enable_frame hothers.group (a.marked later)
        exact ⟨_, .enable i a (a.others v.rules) later,
          h.of_marked hx hafter hstart hgroups, hstart, hadmits later he⟩
      | disable r =>
        obtain ⟨hstart, hgroups⟩ := disable_frame hmarked.group fun f => (r.rule f).isSome
        exact ⟨_, .disable i r, h.of_marked hx (hmarked.disable pre r) hstart hgroups, hstart,
          fun _ => ⟨trivial, trivial⟩⟩
      | linkUp a => exact ⟨_, .linkUp i a, hsame hx ((s.work x).quiet_onLinkUp a), rfl,
          fun _ => trivial⟩
      | addrChange a => exact ⟨_, .addrChange i a,
          hsame hx ((s.work x).quiet_onAddrChange a), rfl, fun _ => trivial⟩

/-- In every run of links whose dumps list their rules, the view has a run of the same events that
ends where the links end; with free numbers the view has them as well. -/
theorem rules_run {pre : Prefixes} {startIdx : UInt32} {es : List Event}
    (hes : Guarded (Listed startIdx) (step pre) s es) (h : s.Marks v) (hv : v.startIdx = startIdx) :
    ∃ views, List.Forall₂ Event.Views es views ∧
      (es.foldl (step pre) s).Marks (views.flatten.foldl MarkedGroups.step v) ∧
      (Guarded (HasFree startIdx) (step pre) s es →
        Guarded MarkedGroups.Admits MarkedGroups.step v views.flatten) := by
  induction es generalizing s v with
  | nil => exact ⟨[], .nil, h, fun _ => trivial⟩
  | cons e es ih =>
    obtain ⟨vs, hvs, hstep, hstart, hadmits⟩ := h.step pre (hv ▸ hes.1)
    obtain ⟨views, hviews, hrun, hguarded⟩ := ih hes.2 hstep (hstart.trans hv)
    refine ⟨vs :: views, .cons hvs hviews, ?_, fun hfree => ?_⟩
    · rw [List.flatten_cons, List.foldl_append]
      exact hrun
    · rw [List.flatten_cons]
      exact Guarded.append.mpr ⟨hadmits (hv ▸ hfree.1), hguarded hfree.2⟩

/-- Enabled links have different numbers, in every run from links that are off. -/
theorem links_distinct {pre : Prefixes} {startIdx : UInt32} {es : List Event}
    (hoff : ∀ x ∈ s.links, x.2.enabled = false ∧ x.2.startIdx = startIdx ∧
      ∀ f, (x.2.fs f).ruleAdded = false)
    (hlisted : Guarded (Listed startIdx) (step pre) s es)
    (hfree : Guarded (HasFree startIdx) (step pre) s es) {i j : Nat}
    {x y : Option LinkInfo × IpsetToLink} (hx : (es.foldl (step pre) s).links[i]? = some x)
    (hy : (es.foldl (step pre) s).links[j]? = some y) (hij : i ≠ j) (hxon : x.2.enabled)
    (hyon : y.2.enabled) : x.2.mark ≠ y.2.mark := by
  -- the view in the beginning
  let v : MarkedGroups := ⟨fun f => (s.sides f).engine.isSome, startIdx, fun f => (s.sides f).rules,
    fun _ _ => [], s.links.map fun x => x.2.marked⟩
  have hnone : ∀ {i : Nat} {l : MarkedLink}, v.groups[i]? ≠ some (some l) := by
    intro i l hl
    rw [List.getElem?_map] at hl
    obtain ⟨x, hx, hmarked⟩ := Option.map_eq_some_iff.mp hl
    rw [IpsetToLink.marked, (hoff x (List.mem_of_getElem? hx)).1] at hmarked
    cases hmarked
  have hv : s.Marks v := ⟨fun _ => rfl, fun _ => rfl, rfl, fun x hx => (hoff x hx).2.1,
    fun x hx _ => (hoff x hx).2.2⟩
  obtain ⟨views, -, hmarks, hadmits⟩ := rules_run hlisted hv rfl
  have hrun := (hadmits hfree).inv (I := fun s => s.Shown ∧ s.Distinct)
    (fun s e hs hadmits => MarkedGroups.step_keeps e hs hadmits)
    ⟨fun i l hl => absurd hl hnone, fun i j l l' hl => absurd hl hnone⟩
  have hgroup : ∀ {i : Nat} {x : Option LinkInfo × IpsetToLink},
      (es.foldl (step pre) s).links[i]? = some x → x.2.enabled →
      (views.flatten.foldl MarkedGroups.step v).groups[i]? =
        some (some ⟨x.2.mark, fun f => (x.2.fs f).ruleAdded⟩) := by
    intro i x hx hon
    rw [hmarks.groups, List.getElem?_map, hx]
    simp [IpsetToLink.marked, hon]
  exact hrun.2 i j _ _ (hgroup hx hxon) (hgroup hy hyon) hij

end Runs

end Links

end MagiTrickle.Enable
