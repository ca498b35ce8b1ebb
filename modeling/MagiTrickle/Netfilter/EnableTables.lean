import MagiTrickle.Netfilter.Enable
import MagiTrickle.Netfilter.RebuildOrder

/-!
# The chains of a link come and go

While a link is enabled and torn down its engine stays `Near` tables it was
settled in: every chain but those of the link holds what it held, and a base
chain at most the jump of the link on top. `Near.insertRules` holds wherever the
insertion fails, `Near.removeRules` says that the removal leaves nothing.
-/

namespace MagiTrickle.Enable

open Iptables
open Netfilter (Family)
open Rebuild
open Lib.Runs (untilErr untilErr_inv untilErr_ok)

def listed (ts : Tables) (t c : Bytes) : Option (List Iptables.Rule) :=
  if linkBases.contains (t, c) then some ((chainOf ts t c).getD []) else chainOf ts t c

theorem listed_base {ts : Tables} {t c : Bytes} (h : (t, c) ∈ linkBases) :
    listed ts t c = some ((chainOf ts t c).getD []) :=
  if_pos (List.contains_iff_mem.mpr h)

theorem listed_other {ts : Tables} {t c : Bytes} (h : (t, c) ∉ linkBases) :
    listed ts t c = chainOf ts t c :=
  if_neg fun hc => h (List.contains_iff_mem.mp hc)

def Own (pre : Prefixes) (id : Id) (t c : Bytes) : Prop := t ∈ linkTables ∧ c = chainName pre id

/-- Neither the chains of the link nor a jump to them are in the tables. -/
structure Absent (pre : Prefixes) (id : Id) (ts : Tables) : Prop where
  own : ∀ t c, Own pre id t c → chainOf ts t c = none
  jump : ∀ t c, (t, c) ∈ linkBases → jump (chainName pre id) ∉ (chainOf ts t c).getD []

/-- The engine has the base chains, and apart from the link its staging is carried out: the tables
are `ts₀`, with the chains of the link or without. -/
structure Near (pre : Prefixes) (id : Id) (ts₀ : Tables) (e : Engine Tables) : Prop where
  ipt : e.ipt.WF
  kernel : e.kernel.WF
  base : ∀ t c, (t, c) ∈ linkBases → ∃ es, findChain e.ipt t c = some (.patch es) ∧
    (∀ x ∈ es, x.rule ≠ Rebuild.jump (chainName pre id) →
      ((chainOf ts₀ t c).getD []).count x.rule = x.copies) ∧
    ((chainOf e.kernel t c).getD [] = (chainOf ts₀ t c).getD [] ∨
      (chainOf e.kernel t c).getD [] =
        (chainOf ts₀ t c).getD [] ++ [Rebuild.jump (chainName pre id)])
  other : ∀ t c, (t, c) ∉ linkBases → ¬Own pre id t c →
    chainOf e.kernel t c = chainOf ts₀ t c ∧ ∃ v, e.ipt.Reached t c v (chainOf ts₀ t c)

/-! ## One entry -/

section Entry

variable {es : List PatchEntry} {x : PatchEntry} {l₀ : List Iptables.Rule} {name : Bytes}
  {v v' : Option (List Iptables.Rule)}

theorem patchEntryCompile_copies {e : PatchEntry} (he : e.Clean) :
    patchEntryCompile name e.copies e = [] := by
  unfold patchEntryCompile
  rcases he.option with ho | ⟨ho, -⟩ | ho <;> simp [PatchEntry.copies, ho]

/-- Where all other entries are carried out the commit works on the one that was staged last. -/
theorem getD_of_addRule (hc : (Chain.patch (addRule es x)).Clean)
    (hcount : ∀ y ∈ es, y.rule ≠ x.rule → l₀.count y.rule = y.copies) (hx : x.rule ∉ l₀)
    (ho : x.option = .append ∨ x.option = .delete)
    (hl : v.getD [] = l₀ ∨ v.getD [] = l₀ ++ [x.rule])
    (hv : ∀ r ∈ v.getD [], ∀ p ∈ r, IsToken p)
    (hrun : runOps ((Chain.patch (addRule es x)).script name v) v = .ok v') :
    v'.getD [] = if x.option = .append then l₀ ++ [x.rule] else l₀ := by
  have hxclean : x.Clean := hc.2 x (List.mem_append_right _ (List.mem_singleton_self x))
  have hcompile : patchCompile (addRule es x) name v =
      patchEntryCompile name ((v.getD []).count x.rule) x := by
    rw [patchCompile_eq hc.2 name hv, addRule, List.flatMap_append, List.flatMap_singleton]
    rw [List.flatMap_eq_nil_iff.mpr, List.nil_append]
    intro y hy
    have hclean := hc.2 y (List.mem_append_left _ hy)
    obtain ⟨hy, hne⟩ := List.mem_filter.mp hy
    have hne : y.rule ≠ x.rule := of_decide_eq_true hne
    have hsame : (v.getD []).count y.rule = l₀.count y.rule := by
      rcases hl with h | h
      · rw [h]
      · rw [h, List.count_append, List.count_singleton, if_neg (by simpa using hne.symm), add_zero]
    rw [hsame, hcount y hy hne, patchEntryCompile_copies hclean]
  have hentry : runOps ((patchCompile (addRule es x) name v).map Command.op) (some (v.getD [])) =
      .ok (some (if x.option = .append then l₀ ++ [x.rule] else l₀)) := by
    rw [hcompile]
    rcases ho with ho | ho
    · rw [if_pos ho, runOps_append_entry ho]
      · rcases hl with h | h <;> simp [h, hx]
      · rcases hl with h | h <;> simp [h, List.count_eq_zero.mpr hx]
    · rw [if_neg (by simp [ho]), runOps_delete_entry hxclean ho]
      have hself : l₀.filter (fun r => r ≠ x.rule) = l₀ := by
        rw [List.filter_eq_self]
        intro r hr
        exact decide_eq_true fun h => hx (h ▸ hr)
      rcases hl with h | h
      · rw [h, hself]
      · rw [h, List.filter_append, hself]
        simp
  by_cases hcmds : ((Chain.patch (addRule es x)).compile name v).1 = []
  · rw [script_eq_nil hcmds] at hrun
    rw [show patchCompile (addRule es x) name v = [] from hcmds] at hentry
    cases hrun
    exact Option.some.inj (Except.ok.inj hentry)
  · rw [runOps_script hcmds, Chain.compile, hentry] at hrun
    cases hrun
    rfl

end Entry

/-! ## Calls -/

/-- A call about the chains of the link, or its jump in a base chain. -/
def IsFor (pre : Prefixes) (id : Id) (call : Call) : Prop :=
  Own pre id call.key.1 call.key.2 ∨
    ∃ t c, (t, c) ∈ linkBases ∧ (call = .append t c (jump (chainName pre id)) ∨
      call = .delete t c (jump (chainName pre id)))

section Calls

variable {pre : Prefixes} {id : Id} {ts₀ : Tables} {e : Engine Tables} {call : Call}

theorem not_own_of_base {t c : Bytes} (h : (t, c) ∈ linkBases) : ¬Own pre id t c := fun ho =>
  baseChains_ne_chainName pre ((by decide : ∀ b ∈ linkBases, b ∈ Engine.baseChains) _ h) id ho.2

theorem isFor_build (pre : Prefixes) (l : Link) (f : Family) :
    ∀ call ∈ buildIptablesRules pre l f, call.Clean ∧ IsFor pre l.id call := by
  intro call hcall
  obtain ⟨hclean, hallowed⟩ := buildIptablesRules_ok (A := (· = l.id)) (B := False) rfl f call hcall
  refine ⟨hclean, ?_⟩
  rcases mem_buildIptablesRules hcall with ⟨t, ht, hfill⟩ | hbase
  · exact .inl (key_of_isFill hfill ▸ ⟨ht, rfl⟩)
  · have hne : ¬Own pre l.id call.key.1 call.key.2 := not_own_of_base hbase
    cases call with
    | append t c r =>
      rcases hallowed with ⟨hb, -⟩ | ⟨hb, id, rfl, rfl⟩
      · exact absurd ((by decide : ∀ b ∈ linkBases, b ∈ Engine.baseChains) _ hbase) hb
      · exact .inr ⟨t, c, hb, .inl rfl⟩
    | registerOverride t c =>
      rcases hallowed with ⟨ht, id, rfl, hc⟩ | ⟨hB, -⟩
      · exact absurd ⟨ht, hc⟩ hne
      · exact hB.elim
    | insert t c n r => exact hallowed.2.1.elim
    | registerPatch t c => simp [buildIptablesRules] at hcall
    | registerDelete t c => simp [buildIptablesRules] at hcall
    | delete t c r => simp [buildIptablesRules] at hcall

theorem isFor_delete (pre : Prefixes) (l : Link) :
    ∀ call ∈ deleteIptablesRules pre l, call.Clean ∧ IsFor pre l.id call := by
  intro call hcall
  refine ⟨(deleteIptablesRules_ok (A := fun _ => False) (B := False) l call hcall).1, ?_⟩
  simp only [deleteIptablesRules, List.mem_cons, List.not_mem_nil, or_false] at hcall
  rcases hcall with rfl | rfl | rfl | rfl | rfl | rfl
  · exact .inl ⟨(by decide : str "filter" ∈ linkTables), rfl⟩
  · exact .inr ⟨_, _, by decide, .inr rfl⟩
  · exact .inl ⟨(by decide : str "mangle" ∈ linkTables), rfl⟩
  · exact .inr ⟨_, _, by decide, .inr rfl⟩
  · exact .inl ⟨(by decide : str "nat" ∈ linkTables), rfl⟩
  · exact .inr ⟨_, _, by decide, .inr rfl⟩

/-- Staging for the link leaves the engine near. -/
theorem Near.step (h : Near pre id ts₀ e) (hclean : call.Clean) (hfor : IsFor pre id call) :
    Near pre id ts₀ { e with ipt := call.step e.ipt } where
  ipt := h.ipt.step hclean
  kernel := h.kernel
  base t c hb := by
    obtain ⟨es, hf, hcount, hkernel⟩ := h.base t c hb
    by_cases hkey : call.key = (t, c)
    · rcases hfor with hown | ⟨t', c', -, hcall⟩
      · rw [hkey] at hown
        exact absurd hown (not_own_of_base hb)
      · have hadd : ∀ o : Opt, ∀ x ∈ addRule es ⟨o, 0, jump (chainName pre id)⟩,
            x.rule ≠ jump (chainName pre id) →
              ((chainOf ts₀ t c).getD []).count x.rule = x.copies := by
          intro o x hx hne
          rcases mem_addRule hx with ⟨hx, -⟩ | rfl
          · exact hcount x hx hne
          · exact absurd rfl hne
        rcases hcall with rfl | rfl
        · cases hkey
          refine ⟨_, ?_, hadd .append, hkernel⟩
          rw [Call.findChain_step, hf, Call.at, if_pos ⟨rfl, rfl⟩]
          rfl
        · cases hkey
          refine ⟨_, ?_, hadd .delete, hkernel⟩
          rw [Call.findChain_step, hf, Call.at, if_pos ⟨rfl, rfl⟩]
          rfl
    · exact ⟨es, by rw [Call.findChain_step, Call.at_of_ne hkey, hf], hcount, hkernel⟩
  other t c hb hown := by
    obtain ⟨hkernel, v, hr⟩ := h.other t c hb hown
    have hkey : call.key ≠ (t, c) := by
      intro hkey
      rcases hfor with hown' | ⟨t', c', hb', hcall⟩
      · rw [hkey] at hown'
        exact hown hown'
      · rcases hcall with rfl | rfl <;>
          · rw [show (t', c') = (t, c) from hkey] at hb'
            exact hb hb'
    refine ⟨hkernel, v, ?_⟩
    unfold Ipt.Reached at hr ⊢
    rwa [Call.findChain_step, Call.at_of_ne hkey]

theorem Near.steps (h : Near pre id ts₀ e) {calls : List Call}
    (hcalls : ∀ call ∈ calls, call.Clean ∧ IsFor pre id call) :
    Near pre id ts₀ { e with ipt := calls.foldl Call.step e.ipt } := by
  induction calls generalizing e with
  | nil => exact h
  | cons call calls ih =>
    obtain ⟨hclean, hfor⟩ := hcalls call (List.mem_cons_self ..)
    exact ih (h.step hclean hfor) fun x hx => hcalls x (List.mem_cons_of_mem _ hx)

/-- A commit after the jump was staged: it carries out that and leaves the rest. -/
theorem Near.commit (h : Near pre id ts₀ e) (habsent : Absent pre id ts₀) {o : Opt}
    (ho : o = .append ∨ o = .delete)
    (hjump : ∀ t c, (t, c) ∈ linkBases → ∃ es,
      findChain e.ipt t c = some (.patch (addRule es ⟨o, 0, jump (chainName pre id)⟩)) ∧
      ∀ x ∈ es, x.rule ≠ jump (chainName pre id) →
        ((chainOf ts₀ t c).getD []).count x.rule = x.copies) :
    ∃ k out, Iptables.commit fake (false, false) e.ipt e.kernel = .ok (k, out) ∧
      Near pre id ts₀ { e with kernel := k } ∧
      (∀ t c, (t, c) ∈ linkBases → (chainOf k t c).getD [] =
        if o = .append then (chainOf ts₀ t c).getD [] ++ [jump (chainName pre id)]
        else (chainOf ts₀ t c).getD []) ∧
      ∀ t c, e.ipt.Reached t c (chainOf e.kernel t c) (chainOf k t c) := by
  obtain ⟨k, out, hcommit, hk, hrun⟩ := commit_fake h.ipt h.kernel
  have hbase : ∀ t c, (t, c) ∈ linkBases → (chainOf k t c).getD [] =
      if o = .append then (chainOf ts₀ t c).getD [] ++ [jump (chainName pre id)]
      else (chainOf ts₀ t c).getD [] := by
    intro t c hb
    obtain ⟨es, hf, hcount⟩ := hjump t c hb
    obtain ⟨-, -, -, hkernel⟩ := h.base t c hb
    have hrun := hrun t c
    rw [Ipt.script, hf] at hrun
    exact getD_of_addRule (h.ipt.findChain hf).2.2 hcount (habsent.jump t c hb) ho hkernel
      h.kernel.chainOf hrun
  refine ⟨k, out, hcommit, ?_, hbase,
    fun t c => reached_of_script h.ipt h.kernel.chainOf (hrun t c)⟩
  refine ⟨h.ipt, hk, fun t c hb => ?_, fun t c hb hown => ?_⟩
  · obtain ⟨es, hf, hcount, -⟩ := h.base t c hb
    refine ⟨es, hf, hcount, ?_⟩
    rw [hbase t c hb]
    rcases ho with rfl | rfl
    · exact .inr rfl
    · exact .inl rfl
  · obtain ⟨hkernel, v, hr⟩ := h.other t c hb hown
    refine ⟨?_, v, hr⟩
    -- nothing to do for a chain whose staging is carried out
    have hrun := hrun t c
    rw [hkernel] at hrun
    have htok := h.kernel.chainOf (t := t) (c := c)
    rw [hkernel] at htok
    unfold Ipt.script at hrun
    unfold Ipt.Reached at hr
    cases hf : findChain e.ipt t c with
    | none =>
      rw [hf] at hrun
      exact (Except.ok.inj hrun).symm
    | some ch =>
      rw [hf] at hr hrun
      simp only at hr hrun
      rw [script_eq_nil (compile_of_reached (h.ipt.findChain hf).2.2 c htok hr)] at hrun
      exact (Except.ok.inj hrun).symm

end Calls

/-! ## Insertion and removal -/

section Engine

variable {pre : Prefixes} {l : Link} {ts₀ : Tables} {e : Engine Tables}

/-- A commit that is answered fails or is one of the executable. -/
theorem commit_answering {σ : Type} (exe : Executable σ) (save restore : Option Err) (ipt : Ipt)
    (s : σ) :
    (∃ err, Iptables.commit (answering exe save restore) (false, false) ipt s = .error err) ∨
      Iptables.commit (answering exe save restore) (false, false) ipt s =
        Iptables.commit exe (false, false) ipt s := by
  cases save with
  | some err => exact .inl ⟨err, rfl⟩
  | none =>
    cases restore with
    | none => exact .inr rfl
    | some err =>
      cases hsave : exe.save s with
      | error err =>
        exact .inl ⟨err, by simp [Iptables.commit, answering, hsave, bind, Except.bind]⟩
      | ok data =>
        cases hcur : getCurrentRules data with
        | error err =>
          exact .inl ⟨err, by simp [Iptables.commit, answering, hsave, hcur, bind, Except.bind]⟩
        | ok cur =>
          have hfake := @commit_of_listing ipt σ exe s data cur hsave hcur false
          have hans := @commit_of_listing ipt σ (answering exe none (some err)) s data cur hsave
            hcur false
          by_cases hnil : transcript ipt cur = []
          · exact .inr (by rw [hfake, hans, if_pos hnil, if_pos hnil])
          · exact .inl ⟨err, by rw [hans, if_neg hnil]; rfl⟩

theorem Near.insertRules (h : Near pre l.id ts₀ e) (habsent : Absent pre l.id ts₀) (f : Family)
    (save restore : Option Err) :
    Near pre l.id ts₀
      (e.insertRules (answering fake save restore) (buildIptablesRules pre l f)).1 := by
  have hcalls := isFor_build pre l f
  have hnear : Near pre l.id ts₀
      { e with ipt := (untilErr Rebuild.call e.ipt (buildIptablesRules pre l f)).1 } := by
    refine untilErr_inv (I := fun ipt => Near pre l.id ts₀ { e with ipt := ipt }) ?_ h
    intro ipt c hc hn
    rw [call_fst]
    exact hn.step (hcalls c hc).1 (hcalls c hc).2
  unfold Engine.insertRules Engine.stage
  cases hr : untilErr Rebuild.call e.ipt (buildIptablesRules pre l f) with
  | mk ipt err =>
    rw [hr] at hnear
    cases err with
    | some err => exact hnear
    | none =>
      have hipt : ipt = (buildIptablesRules pre l f).foldl Call.step e.ipt :=
        untilErr_ok (fun s c s' hs => by rw [← call_fst, hs]) hr
      -- the jump is staged last in every base chain
      have hjump : ∀ t c, (t, c) ∈ linkBases → ∃ es,
          findChain ipt t c = some (.patch (addRule es ⟨.append, 0, jump (chainName pre l.id)⟩)) ∧
          ∀ x ∈ es, x.rule ≠ jump (chainName pre l.id) →
            ((chainOf ts₀ t c).getD []).count x.rule = x.copies := by
        intro t c hb
        obtain ⟨es, hf, hcount, -⟩ := h.base t c hb
        refine ⟨es, ?_, hcount⟩
        rw [hipt, findChain_foldl_step]
        refine (atAll_link_base l f hb _).trans ?_
        rw [hf]
        rfl
      obtain ⟨k, out, hcommit, hk, -⟩ := hnear.commit habsent (.inl rfl) hjump
      have hcommit : Iptables.commit fake (false, false) ipt e.kernel = .ok (k, out) := hcommit
      show Near pre l.id ts₀ (Engine.commit (answering fake save restore) (false, false)
        { e with ipt := ipt }).1
      unfold Engine.commit
      rcases commit_answering fake save restore ipt e.kernel with ⟨err, hans⟩ | hans
      · rw [hans]
        exact hnear
      · rw [hans, hcommit]
        exact hk

/-- No call of the removal fails, as the base chains are registered. -/
theorem Near.removal_ok {calls : List Call} (h : Near pre l.id ts₀ e)
    (hmem : ∀ c ∈ calls, c ∈ deleteIptablesRules pre l) :
    (calls.foldl (fun r c => ((Rebuild.call r.1 c).1, r.2 <|> (Rebuild.call r.1 c).2))
      (e.ipt, none)).2 = none := by
  induction calls generalizing e with
  | nil => rfl
  | cons c calls ih =>
    have hc := hmem c (List.mem_cons_self ..)
    have hbase : ∀ t b r, (t, b) ∈ linkBases → (Rebuild.call e.ipt (.delete t b r)).2 = none := by
      intro t b r hb
      obtain ⟨es, hf, -⟩ := h.base t b hb
      simp [Rebuild.call, Call.run, iptDelete, dispatchRuleOp, hf]
    have hok : (Rebuild.call e.ipt c).2 = none := by
      have hcase := hc
      simp only [deleteIptablesRules, List.mem_cons, List.not_mem_nil, or_false] at hcase
      rcases hcase with rfl | rfl | rfl | rfl | rfl | rfl
      · rfl
      · exact hbase _ _ _ (by decide)
      · rfl
      · exact hbase _ _ _ (by decide)
      · rfl
      · exact hbase _ _ _ (by decide)
    have hstep := isFor_delete pre l c hc
    rw [List.foldl_cons, hok, call_fst]
    exact @ih { e with ipt := c.step e.ipt } (h.step hstep.1 hstep.2)
      fun x hx => hmem x (List.mem_cons_of_mem _ hx)

/-- The removal leaves nothing of the link. -/
theorem Near.removeRules (h : Near pre l.id ts₀ e) (habsent : Absent pre l.id ts₀) :
    (e.removeRules fake (deleteIptablesRules pre l)).2 = none ∧
      Near pre l.id ts₀ (e.removeRules fake (deleteIptablesRules pre l)).1 ∧
      listed (e.removeRules fake (deleteIptablesRules pre l)).1.kernel = listed ts₀ := by
  have hcalls := isFor_delete pre l
  have hnear : Near pre l.id ts₀
      { e with ipt := (deleteIptablesRules pre l).foldl Call.step e.ipt } := h.steps hcalls
  have hjump : ∀ t c, (t, c) ∈ linkBases → ∃ es,
      findChain ((deleteIptablesRules pre l).foldl Call.step e.ipt) t c =
        some (.patch (addRule es ⟨.delete, 0, jump (chainName pre l.id)⟩)) ∧
      ∀ x ∈ es, x.rule ≠ jump (chainName pre l.id) →
        ((chainOf ts₀ t c).getD []).count x.rule = x.copies := by
    intro t c hb
    obtain ⟨es, hf, hcount, -⟩ := h.base t c hb
    refine ⟨es, ?_, hcount⟩
    have hown : ¬(t ∈ linkTables ∧ c = chainName pre l.id) := not_own_of_base hb
    rw [findChain_deleteIptablesRules, if_neg hown, if_pos hb, hf]
    rfl
  obtain ⟨k, out, hcommit, hk, hbase, hreach⟩ := hnear.commit habsent (.inr rfl) hjump
  have hlisted : listed k = listed ts₀ := by
    funext t c
    by_cases hb : (t, c) ∈ linkBases
    · rw [listed_base hb, listed_base hb, hbase t c hb]
      rfl
    · rw [listed_other hb, listed_other hb]
      by_cases hown : Own pre l.id t c
      · have hr := hreach t c
        have hown' : t ∈ linkTables ∧ c = chainName pre l.id := hown
        rw [Ipt.Reached, findChain_deleteIptablesRules, if_pos hown'] at hr
        rw [show chainOf k t c = none from hr, habsent.own t c hown]
      · exact (hk.other t c hb hown).1
  have hres : e.removeRules fake (deleteIptablesRules pre l) =
      ({ ipt := (deleteIptablesRules pre l).foldl Call.step e.ipt, kernel := k }, none) := by
    have hcommit : Iptables.commit fake (false, false)
        ((deleteIptablesRules pre l).foldl Call.step e.ipt) e.kernel = .ok (k, out) := hcommit
    simp only [Engine.removeRules, EngineOk.removed_fst, Engine.commit, hcommit,
      h.removal_ok (fun _ hc => hc)]
    rfl
  rw [hres]
  exact ⟨rfl, hk, hlisted⟩

/-- Where the removal fails the tables stay. -/
theorem Near.removeRules_answering (h : Near pre l.id ts₀ e) (habsent : Absent pre l.id ts₀)
    (save restore : Option Err) :
    let r := e.removeRules (answering fake save restore) (deleteIptablesRules pre l)
    Near pre l.id ts₀ r.1 ∧ (listed r.1.kernel = listed ts₀ ∨ r.1.kernel = e.kernel) := by
  obtain ⟨-, hnear, hlisted⟩ := h.removeRules habsent
  unfold Engine.removeRules Engine.commit at *
  rcases commit_answering fake save restore ((deleteIptablesRules pre l).foldl Call.step e.ipt)
    e.kernel with ⟨err, hans⟩ | hans
  · simp only [EngineOk.removed_fst, hans]
    exact ⟨h.steps (isFor_delete pre l), .inr trivial⟩
  · simp only [EngineOk.removed_fst, hans] at hnear hlisted ⊢
    exact ⟨hnear, .inl hlisted⟩

/-- After a commit an engine is near its own tables. -/
theorem near_of_commit (id : Id) (hipt : e.ipt.WF) (hkernel : e.kernel.WF)
    (hbase : ∀ t c, (t, c) ∈ linkBases → ∃ es, findChain e.ipt t c = some (.patch es)) {k : Tables}
    {out : Bytes} (hcommit : Iptables.commit fake (false, false) e.ipt e.kernel = .ok (k, out)) :
    Near pre id k { e with kernel := k } := by
  obtain ⟨k', out', hcommit', hk, hrun⟩ := commit_fake hipt hkernel
  rw [hcommit] at hcommit'
  cases hcommit'
  have hreach := fun t c => reached_of_script hipt hkernel.chainOf (hrun t c)
  refine ⟨hipt, hk, fun t c hb => ?_, fun t c _ _ => ⟨rfl, _, hreach t c⟩⟩
  obtain ⟨es, hf⟩ := hbase t c hb
  have hr := hreach t c
  rw [Ipt.Reached, hf] at hr
  exact ⟨es, hf, fun x hx _ => hr.2.2 x hx, .inl rfl⟩

end Engine

end MagiTrickle.Enable
