import MagiTrickle.Iptables.Commit

/-!
# Staging histories

The engine is driven by calls that register chains and stage rules in them.
`commit_reaches_staged` is about every history of such calls and every table
content: one commit carries out what the history last asked for, and a second
one finds nothing to do.
-/

namespace MagiTrickle.Iptables

open MagiTrickle.Lib

inductive Call where
  | registerOverride (table chain : Bytes)
  | registerPatch (table chain : Bytes)
  | registerDelete (table chain : Bytes)
  | append (table chain : Bytes) (r : Rule)
  | insert (table chain : Bytes) (ruleNum : Int) (r : Rule)
  | delete (table chain : Bytes) (r : Rule)
  deriving DecidableEq, Repr

namespace Call

def run (ipt : Ipt) : Call → Except Err Ipt
  | registerOverride t c => .ok (registerChainOverride ipt t c)
  | registerPatch t c => .ok (registerChainPatch ipt t c)
  | registerDelete t c => .ok (registerChainDelete ipt t c)
  | append t c r => iptAppend ipt t c r
  | insert t c num r => iptInsert ipt t c num r
  | delete t c r => iptDelete ipt t c r

/-- A call that fails leaves the engine as it was. -/
def step (ipt : Ipt) (call : Call) : Ipt := (call.run ipt).toOption.getD ipt

/-- Names and parts are words; a rule is inserted at a positive position. -/
def Clean : Call → Prop
  | registerOverride t c | registerPatch t c | registerDelete t c => IsToken t ∧ IsToken c
  | append t c r | delete t c r => IsToken t ∧ IsToken c ∧ ∀ p ∈ r, IsToken p
  | insert t c num r =>
    IsToken t ∧ IsToken c ∧ (1 ≤ num ∧ num < 2 ^ 31) ∧ ∀ p ∈ r, IsToken p

instance : (call : Call) → Decidable call.Clean
  | registerOverride t c | registerPatch t c | registerDelete t c =>
    inferInstanceAs (Decidable (IsToken t ∧ IsToken c))
  | append t c r | delete t c r =>
    inferInstanceAs (Decidable (IsToken t ∧ IsToken c ∧ ∀ p ∈ r, IsToken p))
  | insert t c num r => inferInstanceAs (Decidable (IsToken t ∧ IsToken c ∧
      (1 ≤ num ∧ num < 2 ^ 31) ∧ ∀ p ∈ r, IsToken p))

/-- What a call says about a rule of a chain; a registration forgets what was said before. -/
def note (t c : Bytes) (r : Rule) (last : Option Opt) : Call → Option Opt
  | registerOverride t' c' | registerPatch t' c' | registerDelete t' c' =>
    if t = t' ∧ c = c' then none else last
  | append t' c' r' => if (t = t' ∧ c = c') ∧ r = r' then some .append else last
  | insert t' c' _ r' => if (t = t' ∧ c = c') ∧ r = r' then some .insert else last
  | delete t' c' r' => if (t = t' ∧ c = c') ∧ r = r' then some .delete else last

end Call

/-- The engine after a history of calls. -/
def engineOf (calls : List Call) : Ipt := calls.foldl Call.step iptNew

/-- The last operation staged for a rule since its chain was registered. -/
def lastStaged (calls : List Call) (t c : Bytes) (r : Rule) : Option Opt :=
  calls.foldl (Call.note t c r) none

/-! ## Histories keep the engine well formed -/

section Clean

variable {ch : Chain} {r : Rule}

theorem clean_addRule {es : List PatchEntry} (h : (Chain.patch es).Clean) {e : PatchEntry}
    (he : e.Clean) : (Chain.patch (addRule es e)).Clean := by
  refine ⟨?_, fun x hx => ?_⟩
  · rw [addRule, List.map_append, List.map_singleton, List.nodup_append]
    refine ⟨h.1.sublist (List.filter_sublist.map _), List.nodup_singleton _, ?_⟩
    intro a ha b hb
    obtain ⟨x, hx, rfl⟩ := List.mem_map.mp ha
    rw [List.mem_singleton.mp hb]
    simpa using (List.mem_filter.mp hx).2
  · rcases List.mem_append.mp hx with hx | hx
    · exact h.2 x (List.mem_filter.mp hx).1
    · exact List.mem_singleton.mp hx ▸ he

theorem Chain.Clean.append (h : ch.Clean) (hr : ∀ p ∈ r, IsToken p) : (ch.append r).Clean := by
  cases ch with
  | override rules => exact keepsWords_append hr rules h
  | patch es => exact clean_addRule h ⟨hr, .inl rfl⟩
  | delete => trivial

theorem Chain.Clean.insert (h : ch.Clean) (hr : ∀ p ∈ r, IsToken p) {num : Int}
    (hnum : 1 ≤ num ∧ num < 2 ^ 31) : (ch.insert num r).Clean := by
  cases ch with
  | override rules =>
    simp only [Chain.insert]
    split
    · exact h
    · exact keepsWords_insertIdx hr (fun _ => num.toNat - 1) rules h
  | patch es => exact clean_addRule h ⟨hr, .inr (.inl ⟨rfl, hnum⟩)⟩
  | delete => trivial

theorem Chain.Clean.remove (h : ch.Clean) (hr : ∀ p ∈ r, IsToken p) : (ch.remove r).Clean := by
  cases ch with
  | override rules => exact fun x hx => h x (List.mem_of_mem_erase hx)
  | patch es => exact clean_addRule h ⟨hr, .inr (.inr rfl)⟩
  | delete => trivial

end Clean

theorem Call.step_cases (ipt : Ipt) (call : Call) :
    (∃ t c new, call.step ipt = registerChain ipt t c new ∧
        ((call = .registerOverride t c ∧ new = .override []) ∨
          (call = .registerPatch t c ∧ new = .patch []) ∨
          (call = .registerDelete t c ∧ new = .delete))) ∨
      (∃ t c ch new, findChain ipt t c = some ch ∧ call.step ipt = registerChain ipt t c new ∧
        ((∃ r, call = .append t c r ∧ new = ch.append r) ∨
          (∃ num r, call = .insert t c num r ∧ new = ch.insert num r) ∨
          (∃ r, call = .delete t c r ∧ new = ch.remove r))) ∨
      (∃ t c r, findChain ipt t c = none ∧ call.step ipt = ipt ∧
        (call = .append t c r ∨ (∃ num, call = .insert t c num r) ∨ call = .delete t c r)) := by
  have hdispatch : ∀ (t c : Bytes) (op : Chain → Chain),
      (∃ ch, findChain ipt t c = some ch ∧
        (dispatchRuleOp ipt t c op).toOption.getD ipt = registerChain ipt t c (op ch)) ∨
      (findChain ipt t c = none ∧ (dispatchRuleOp ipt t c op).toOption.getD ipt = ipt) := by
    intro t c op
    unfold dispatchRuleOp
    cases findChain ipt t c with
    | none => exact .inr ⟨rfl, rfl⟩
    | some ch => exact .inl ⟨ch, rfl, rfl⟩
  cases call with
  | registerOverride t c => exact .inl ⟨t, c, _, rfl, .inl ⟨rfl, rfl⟩⟩
  | registerPatch t c => exact .inl ⟨t, c, _, rfl, .inr (.inl ⟨rfl, rfl⟩)⟩
  | registerDelete t c => exact .inl ⟨t, c, _, rfl, .inr (.inr ⟨rfl, rfl⟩)⟩
  | append t c r =>
    rcases hdispatch t c fun ch => ch.append r with ⟨ch, hf, hs⟩ | ⟨hf, hs⟩
    · exact .inr (.inl ⟨t, c, ch, _, hf, hs, .inl ⟨r, rfl, rfl⟩⟩)
    · exact .inr (.inr ⟨t, c, r, hf, hs, .inl rfl⟩)
  | insert t c num r =>
    rcases hdispatch t c fun ch => ch.insert num r with ⟨ch, hf, hs⟩ | ⟨hf, hs⟩
    · exact .inr (.inl ⟨t, c, ch, _, hf, hs, .inr (.inl ⟨num, r, rfl, rfl⟩)⟩)
    · exact .inr (.inr ⟨t, c, r, hf, hs, .inr (.inl ⟨num, rfl⟩)⟩)
  | delete t c r =>
    rcases hdispatch t c fun ch => ch.remove r with ⟨ch, hf, hs⟩ | ⟨hf, hs⟩
    · exact .inr (.inl ⟨t, c, ch, _, hf, hs, .inr (.inr ⟨r, rfl, rfl⟩)⟩)
    · exact .inr (.inr ⟨t, c, r, hf, hs, .inr (.inr rfl)⟩)

def Call.at (t c : Bytes) (v : Option Chain) : Call → Option Chain
  | registerOverride t' c' => if t = t' ∧ c = c' then some (.override []) else v
  | registerPatch t' c' => if t = t' ∧ c = c' then some (.patch []) else v
  | registerDelete t' c' => if t = t' ∧ c = c' then some .delete else v
  | append t' c' r => if t = t' ∧ c = c' then v.map fun ch => ch.append r else v
  | insert t' c' num r => if t = t' ∧ c = c' then v.map fun ch => ch.insert num r else v
  | delete t' c' r => if t = t' ∧ c = c' then v.map fun ch => ch.remove r else v

theorem Call.findChain_step (ipt : Ipt) (call : Call) (t c : Bytes) :
    findChain (call.step ipt) t c = call.at t c (findChain ipt t c) := by
  rcases call.step_cases ipt with ⟨t', c', new, hs, hnew⟩ | ⟨t', c', ch, new, hf, hs, hnew⟩ |
    ⟨t', c', r, hf, hs, hcall⟩
  · rw [hs, findChain_registerChain]
    rcases hnew with ⟨rfl, rfl⟩ | ⟨rfl, rfl⟩ | ⟨rfl, rfl⟩ <;> rfl
  · rw [hs, findChain_registerChain]
    by_cases hk : t = t' ∧ c = c'
    · obtain ⟨rfl, rfl⟩ := hk
      rw [hf]
      rcases hnew with ⟨r, rfl, rfl⟩ | ⟨num, r, rfl, rfl⟩ | ⟨r, rfl, rfl⟩ <;> simp [Call.at]
    · rcases hnew with ⟨r, rfl, rfl⟩ | ⟨num, r, rfl, rfl⟩ | ⟨r, rfl, rfl⟩ <;> simp [Call.at, hk]
  · rw [hs]
    by_cases hk : t = t' ∧ c = c'
    · obtain ⟨rfl, rfl⟩ := hk
      rw [hf]
      rcases hcall with rfl | ⟨num, rfl⟩ | rfl <;> simp [Call.at]
    · rcases hcall with rfl | ⟨num, rfl⟩ | rfl <;> simp [Call.at, hk]

theorem findChain_foldl_step (calls : List Call) (ipt : Ipt) (t c : Bytes) :
    findChain (calls.foldl Call.step ipt) t c =
      calls.foldl (fun v call => call.at t c v) (findChain ipt t c) := by
  induction calls generalizing ipt with
  | nil => rfl
  | cons call calls ih => rw [List.foldl_cons, ih, Call.findChain_step, List.foldl_cons]

def Call.key : Call → Bytes × Bytes
  | registerOverride t c | registerPatch t c | registerDelete t c | append t c _ | insert t c _ _
  | delete t c _ => (t, c)

theorem Call.at_of_ne {call : Call} {t c : Bytes} (h : call.key ≠ (t, c)) (v : Option Chain) :
    call.at t c v = v := by
  have hne : ∀ {t' c' : Bytes}, (t', c') ≠ (t, c) → ¬ (t = t' ∧ c = c') := by
    rintro t' c' h ⟨rfl, rfl⟩
    exact h rfl
  cases call <;> exact if_neg (hne h)

theorem foldl_at_of_ne {calls : List Call} {t c : Bytes} (h : ∀ call ∈ calls, call.key ≠ (t, c))
    (v : Option Chain) : calls.foldl (fun v call => call.at t c v) v = v := by
  induction calls generalizing v with
  | nil => rfl
  | cons call calls ih =>
    rw [List.foldl_cons, Call.at_of_ne (h call (List.mem_cons_self ..))]
    exact ih (fun x hx => h x (List.mem_cons_of_mem _ hx)) v

theorem Ipt.WF.step {ipt : Ipt} (h : ipt.WF) {call : Call} (hcall : call.Clean) :
    (call.step ipt).WF := by
  rcases call.step_cases ipt with ⟨t, c, new, hs, hnew⟩ | ⟨t, c, ch, new, hf, hs, hnew⟩ |
    ⟨t, c, r, -, hs, -⟩
  · rw [hs]
    rcases hnew with ⟨rfl, rfl⟩ | ⟨rfl, rfl⟩ | ⟨rfl, rfl⟩
    · exact h.registerChain hcall.1 hcall.2 (by simp [Chain.Clean])
    · exact h.registerChain hcall.1 hcall.2 (by simp [Chain.Clean])
    · exact h.registerChain hcall.1 hcall.2 trivial
  · have hclean := (h.findChain hf).2.2
    rw [hs]
    rcases hnew with ⟨r, rfl, rfl⟩ | ⟨num, r, rfl, rfl⟩ | ⟨r, rfl, rfl⟩
    · exact h.registerChain hcall.1 hcall.2.1 (hclean.append hcall.2.2)
    · exact h.registerChain hcall.1 hcall.2.1 (hclean.insert hcall.2.2.2 hcall.2.2.1)
    · exact h.registerChain hcall.1 hcall.2.1 (hclean.remove hcall.2.2)
  · rw [hs]
    exact h

theorem Ipt.WF.run {ipt : Ipt} (h : ipt.WF) {calls : List Call}
    (hcalls : ∀ call ∈ calls, call.Clean) : (calls.foldl Call.step ipt).WF := by
  induction calls generalizing ipt with
  | nil => exact h
  | cons call calls ih =>
    exact ih (h.step (hcalls call (List.mem_cons_self ..))) fun x hx =>
      hcalls x (List.mem_cons_of_mem _ hx)

theorem wf_engineOf {calls : List Call} (h : ∀ call ∈ calls, call.Clean) : (engineOf calls).WF :=
  Ipt.WF.iptNew.run h

/-! ## Patch chains hold what was last staged -/

/-- The entries of every patch chain agree with what was last staged. -/
def Agrees (ipt : Ipt) (last : Bytes → Bytes → Rule → Option Opt) : Prop :=
  ∀ t c es, findChain ipt t c = some (.patch es) →
    ∀ r, (es.find? fun e => e.rule = r).map PatchEntry.option = last t c r

theorem find?_addRule (es : List PatchEntry) (e : PatchEntry) (r : Rule) :
    ((addRule es e).find? fun x => x.rule = r).map PatchEntry.option =
      if r = e.rule then some e.option
      else (es.find? fun x => x.rule = r).map PatchEntry.option := by
  unfold addRule
  by_cases h : r = e.rule
  · subst h
    rw [if_pos rfl, List.find?_append, List.find?_eq_none.mpr]
    · simp
    · intro x hx
      simpa using (List.mem_filter.mp hx).2
  · rw [if_neg h, List.find?_append, List.find?_filter]
    have hp : (fun x : PatchEntry => decide (decide (x.rule ≠ e.rule) = true ∧
        decide (x.rule = r) = true)) = fun x => decide (x.rule = r) := by
      funext x
      by_cases hx : x.rule = r
      · simp [hx, h]
      · simp [hx]
    rw [hp]
    cases es.find? fun x => x.rule = r with
    | some x => rfl
    | none => simp [Ne.symm h]

theorem Agrees.stage {ipt : Ipt} {last last' : Bytes → Bytes → Rule → Option Opt}
    (h : Agrees ipt last) {t c : Bytes} {ch new : Chain} (hf : findChain ipt t c = some ch)
    {e : PatchEntry} (hnew : ∀ es, new = .patch es → ∃ es', ch = .patch es' ∧ es = addRule es' e)
    (hlast : ∀ t' c' r, last' t' c' r =
      if (t' = t ∧ c' = c) ∧ r = e.rule then some e.option else last t' c' r) :
    Agrees (registerChain ipt t c new) last' := by
  intro t' c' es hes r
  rw [findChain_registerChain] at hes
  rw [hlast]
  by_cases hk : t' = t ∧ c' = c
  · obtain ⟨rfl, rfl⟩ := hk
    rw [if_pos ⟨rfl, rfl⟩] at hes
    obtain ⟨es', rfl, rfl⟩ := hnew es (Option.some.inj hes)
    rw [find?_addRule, h t' c' es' hf r]
    by_cases hr : r = e.rule
    · rw [if_pos hr, if_pos ⟨⟨rfl, rfl⟩, hr⟩]
    · rw [if_neg hr, if_neg fun hh => hr hh.2]
  · rw [if_neg hk] at hes
    rw [if_neg fun hh => hk hh.1]
    exact h t' c' es hes r

theorem Agrees.step {ipt : Ipt} {last : Bytes → Bytes → Rule → Option Opt} (h : Agrees ipt last)
    (call : Call) : Agrees (call.step ipt) fun t c r => call.note t c r (last t c r) := by
  rcases call.step_cases ipt with ⟨t, c, new, hs, hnew⟩ | ⟨t, c, ch, new, hf, hs, hnew⟩ |
    ⟨t, c, r, hf, hs, hcall⟩
  · -- a new registration: no entries yet, and nothing said
    have hnote : ∀ t' c' r, call.note t' c' r (last t' c' r) =
        if t' = t ∧ c' = c then none else last t' c' r := by
      rcases hnew with ⟨rfl, -⟩ | ⟨rfl, -⟩ | ⟨rfl, -⟩ <;> exact fun _ _ _ => rfl
    rw [hs]
    intro t' c' es hes r
    rw [findChain_registerChain] at hes
    simp only [hnote]
    by_cases hk : t' = t ∧ c' = c
    · rw [if_pos hk] at hes ⊢
      obtain rfl : new = .patch es := Option.some.inj hes
      have : es = [] := by
        rcases hnew with ⟨-, hn⟩ | ⟨-, hn⟩ | ⟨-, hn⟩ <;> cases hn
        rfl
      rw [this]
      rfl
    · rw [if_neg hk] at hes ⊢
      exact h t' c' es hes r
  · rw [hs]
    rcases hnew with ⟨r, rfl, rfl⟩ | ⟨num, r, rfl, rfl⟩ | ⟨r, rfl, rfl⟩
    · refine h.stage hf (e := ⟨.append, 0, r⟩) (fun es hes => ?_) fun _ _ _ => rfl
      cases ch <;> cases hes
      exact ⟨_, rfl, rfl⟩
    · refine h.stage hf (e := ⟨.insert, num, r⟩) (fun es hes => ?_) fun _ _ _ => rfl
      cases ch with
      | override rules =>
        simp only [Chain.insert] at hes
        split at hes <;> cases hes
      | patch es' =>
        cases hes
        exact ⟨_, rfl, rfl⟩
      | delete => cases hes
    · refine h.stage hf (e := ⟨.delete, 0, r⟩) (fun es hes => ?_) fun _ _ _ => rfl
      cases ch <;> cases hes
      exact ⟨_, rfl, rfl⟩
  · -- the chain is not registered: the call says nothing about a registered one
    rw [hs]
    intro t' c' es hes r'
    have hk : ¬ (t' = t ∧ c' = c) := by
      rintro ⟨rfl, rfl⟩
      rw [hf] at hes
      cases hes
    have hnote : call.note t' c' r' (last t' c' r') = last t' c' r' := by
      rcases hcall with rfl | ⟨num, rfl⟩ | rfl <;> exact if_neg fun hh => hk hh.1
    show _ = call.note t' c' r' (last t' c' r')
    rw [hnote]
    exact h t' c' es hes r'

theorem Agrees.run {ipt : Ipt} {last : Bytes → Bytes → Rule → Option Opt} (h : Agrees ipt last)
    (calls : List Call) :
    Agrees (calls.foldl Call.step ipt) fun t c r => calls.foldl (Call.note t c r) (last t c r) := by
  induction calls generalizing ipt last with
  | nil => exact h
  | cons call calls ih => exact ih (h.step call)

theorem agrees_iptNew : Agrees iptNew fun _ _ _ => none := fun _ _ _ hes => nomatch hes

theorem agrees_engineOf (calls : List Call) : Agrees (engineOf calls) (lastStaged calls) :=
  agrees_iptNew.run calls

/-! ## The commit after a history -/

/-- What a commit owes to a history of calls, for one chain that was `v` and becomes `v'`. -/
def Owed (calls : List Call) (t c : Bytes) (v v' : Option (List Rule)) : Prop :=
  match findChain (engineOf calls) t c with
  | none => v' = v
  | some (.override rules) => v' = some rules
  | some .delete => v' = none
  | some (.patch _) =>
    (v.isSome → v'.isSome) ∧
      (v'.getD []).filter (fun r => lastStaged calls t c r = none) =
        (v.getD []).filter (fun r => lastStaged calls t c r = none) ∧
      ∀ r, match lastStaged calls t c r with
        | some .append | some .insert => (v'.getD []).count r = 1
        | some .delete => (v'.getD []).count r = 0
        | _ => True

theorem owed_of_reached {calls : List Call} (hcalls : ∀ call ∈ calls, call.Clean) {t c : Bytes}
    {v v' : Option (List Rule)} (h : (engineOf calls).Reached t c v v') : Owed calls t c v v' := by
  unfold Ipt.Reached at h
  unfold Owed
  cases hf : findChain (engineOf calls) t c with
  | none => rwa [hf] at h
  | some ch =>
    rw [hf] at h
    cases ch with
    | override rules => exact h
    | delete => exact h
    | patch es =>
      have hlast := agrees_engineOf calls t c es hf
      have hclean := ((wf_engineOf hcalls).findChain hf).2.2
      have hmem : ∀ r, lastStaged calls t c r = none ↔ r ∉ es.map PatchEntry.rule := by
        intro r
        rw [← hlast r, Option.map_eq_none_iff, List.find?_eq_none]
        simp
      refine ⟨h.1, ?_, fun r => ?_⟩
      · simp only [hmem]
        exact h.2.1
      · rw [← hlast r]
        cases he : es.find? fun e => e.rule = r with
        | none => trivial
        | some e =>
          obtain rfl : e.rule = r := by simpa using List.find?_some he
          have hcount := h.2.2 e (List.mem_of_find?_eq_some he)
          rcases (hclean.2 e (List.mem_of_find?_eq_some he)).option with ho | ⟨ho, -⟩ | ho
          all_goals
            rw [PatchEntry.copies, ho] at hcount
            simpa [ho] using hcount

/-- One commit reaches the staged state from every table content, and the next one gives the
executable nothing to do. -/
theorem commit_reaches_staged (calls : List Call) (hcalls : ∀ call ∈ calls, call.Clean)
    (ts : Tables) (hts : ts.WF) :
    ∃ ts' out, commit fake (false, false) (engineOf calls) ts = .ok (ts', out) ∧
      (∀ raised x, commit fake raised (engineOf calls) ts = .ok x → x = (ts', out)) ∧
      (∀ t c, Owed calls t c (chainOf ts t c) (chainOf ts' t c)) ∧
      commit fake (false, false) (engineOf calls) ts' = .ok (ts', []) := by
  have hwf := wf_engineOf hcalls
  obtain ⟨ts', out, hcommit, hwf', hscript⟩ := commit_fake hwf hts
  have hreach := fun t c => reached_of_script hwf hts.chainOf (hscript t c)
  refine ⟨ts', out, hcommit, fun raised x hx => ?_, fun t c => ?_, ?_⟩
  · have := (commit_raised hts hx).symm.trans hcommit
    exact Except.ok.inj this
  · exact owed_of_reached hcalls (hreach t c)
  · exact commit_of_reached hwf hwf' fun t c => ⟨_, hreach t c⟩

def threeChains : List Call :=
  [.registerPatch (str "filter") (str "FORWARD"),
    .registerOverride (str "filter") (str "MT"),
    .registerDelete (str "filter") (str "OLD"),
    .append (str "filter") (str "MT") [str "-j", str "ACCEPT"],
    .insert (str "filter") (str "MT") 1 [str "-i", str "br0"],
    .delete (str "filter") (str "FORWARD") [str "-j", str "OLD"],
    .append (str "filter") (str "FORWARD") [str "-j", str "MT"]]

def jumpTwice : Tables :=
  [⟨str "filter", [
    ⟨str "FORWARD", [[str "-j", str "MT"], [str "-j", str "OLD"], [str "-j", str "MT"]]⟩,
    ⟨str "MT", [[str "-j", str "DROP"]]⟩,
    ⟨str "OLD", [[str "-j", str "DROP"]]⟩]⟩]

theorem commit_reaches_staged_jump :
    ∃ ts' out, commit fake (false, false) (engineOf threeChains) jumpTwice = .ok (ts', out) ∧
      chainOf ts' (str "filter") (str "MT") =
        some [[str "-i", str "br0"], [str "-j", str "ACCEPT"]] ∧
      chainOf ts' (str "filter") (str "OLD") = none ∧
      ((chainOf ts' (str "filter") (str "FORWARD")).getD []).count [str "-j", str "MT"] = 1 ∧
      ((chainOf ts' (str "filter") (str "FORWARD")).getD []).count [str "-j", str "OLD"] = 0 ∧
      commit fake (false, false) (engineOf threeChains) ts' = .ok (ts', []) := by
  obtain ⟨ts', out, hcommit, -, howed, hagain⟩ :=
    commit_reaches_staged threeChains (by decide) jumpTwice (by decide)
  exact ⟨ts', out, hcommit, howed (str "filter") (str "MT"), howed (str "filter") (str "OLD"),
    (howed (str "filter") (str "FORWARD")).2.2 [str "-j", str "MT"],
    (howed (str "filter") (str "FORWARD")).2.2 [str "-j", str "OLD"], hagain⟩

end MagiTrickle.Iptables
