import MagiTrickle.Iptables.Deletions
import MagiTrickle.Iptables.Order
import MagiTrickle.Netfilter.GroupScript

/-!
# The clean-up (`netfilter/cleaner.c`)

The cleaner registers every chain with the prefix for deletion and, in the other
chains, deletes the rules that contain `-j ` and the prefix. It looks for the
first 127 bytes of that text only, and `clean_exact` says for which tables this
makes a difference. Otherwise what is ours goes, the rest stays as it was, and
the transcript takes every jump away before the chain it leads to.
-/

namespace MagiTrickle.Rebuild

open Iptables
open Lib Lib.Runs

/-! ## Deletions in a patch chain -/

/-- The entries of a patch chain after rules were deleted. -/
def deleteAll (es : List PatchEntry) (rs : List Iptables.Rule) : List PatchEntry :=
  rs.foldl (fun es r => addRule es ⟨.delete, 0, r⟩) es

theorem foldl_remove_patch (rs : List Iptables.Rule) (es : List PatchEntry) :
    rs.foldl (fun v r => some ((v.getD (.patch [])).remove r)) (some (.patch es)) =
      some (Chain.patch (deleteAll es rs)) := by
  induction rs generalizing es with
  | nil => rfl
  | cons r rs ih => exact ih (addRule es ⟨.delete, 0, r⟩)

theorem foldl_remove_none {rs : List Iptables.Rule} (h : rs ≠ []) :
    rs.foldl (fun v r => some ((v.getD (.patch [])).remove r)) none =
      some (Chain.patch (deleteAll [] rs)) := by
  cases rs with
  | nil => exact absurd rfl h
  | cons r rs => exact foldl_remove_patch rs (addRule [] ⟨.delete, 0, r⟩)

theorem mem_deleteAll {es : List PatchEntry} {rs : List Iptables.Rule} {e : PatchEntry}
    (h : e ∈ deleteAll es rs) : e ∈ es ∨ (e.option = .delete ∧ e.rule ∈ rs) := by
  induction rs generalizing es with
  | nil => exact .inl h
  | cons r rs ih =>
    rcases ih h with h | ⟨ho, hr⟩
    · rcases mem_addRule h with ⟨h, -⟩ | rfl
      · exact .inl h
      · exact .inr ⟨rfl, List.mem_cons_self ..⟩
    · exact .inr ⟨ho, List.mem_cons_of_mem _ hr⟩

theorem deletedRules_deleteAll {es : List PatchEntry} {rs : List Iptables.Rule} {r : Iptables.Rule}
    (h : r ∈ rs ∨ r ∈ deletedRules es) : r ∈ deletedRules (deleteAll es rs) := by
  induction rs generalizing es with
  | nil => exact h.resolve_left List.not_mem_nil
  | cons x rs ih =>
    refine ih ?_
    by_cases hr : r = x
    · exact .inr (mem_deletedRules.mpr ⟨_, List.mem_append_right _ (List.mem_singleton_self _),
        rfl, hr.symm⟩)
    · rcases h with h | h
      · exact .inl ((List.mem_cons.mp h).resolve_left hr)
      · obtain ⟨e, he, ho, rfl⟩ := mem_deletedRules.mp h
        refine .inr (mem_deletedRules.mpr ⟨e, List.mem_append_left _ ?_, ho, rfl⟩)
        exact List.mem_filter.mpr ⟨he, decide_eq_true hr⟩

theorem clean_deleteAll {es : List PatchEntry} (h : (Chain.patch es).Clean)
    {rs : List Iptables.Rule} (hrs : ∀ r ∈ rs, ∀ x ∈ r, IsToken x) :
    (Chain.patch (deleteAll es rs)).Clean := by
  induction rs generalizing es with
  | nil => exact h
  | cons r rs ih =>
    exact ih (clean_addRule h ⟨hrs r (List.mem_cons_self ..), .inr (.inr rfl)⟩)
      fun x hx => hrs x (List.mem_cons_of_mem _ hx)

/-! ## The deletion of a rule -/

theorem findChain_cleanRule (t c : Bytes) (ipt : Ipt) (r : Iptables.Rule) (t' c' : Bytes) :
    findChain (Engine.cleanRule t c ipt r).1 t' c' =
      if t' = t ∧ c' = c then some (((findChain ipt t' c').getD (.patch [])).remove r)
      else findChain ipt t' c' := by
  rcases cleanRule_eq t c ipt r with ⟨hne, heq⟩ | ⟨hnone, heq⟩
  · rw [heq, Call.findChain_step, Call.at]
    by_cases hk : t' = t ∧ c' = c
    · obtain ⟨rfl, rfl⟩ := hk
      obtain ⟨ch, hch⟩ := Option.ne_none_iff_exists'.mp hne
      simp [hch]
    · simp [hk]
  · rw [heq, findChain_foldl_step]
    by_cases hk : t' = t ∧ c' = c
    · obtain ⟨rfl, rfl⟩ := hk
      simp [Call.at, hnone]
    · simp [Call.at, hk]

theorem cleanRule_snd (t c : Bytes) (ipt : Ipt) (r : Iptables.Rule) :
    Engine.cleanRule t c ipt r = ((Engine.cleanRule t c ipt r).1, none) := by
  rcases cleanRule_eq t c ipt r with ⟨-, heq⟩ | ⟨-, heq⟩ <;> rw [heq]

theorem findChain_cleanRules (t c : Bytes) (rs : List Iptables.Rule) (ipt : Ipt) (t' c' : Bytes) :
    findChain (rs.foldl (fun ipt r => (Engine.cleanRule t c ipt r).1) ipt) t' c' =
      if t' = t ∧ c' = c then
        rs.foldl (fun v r => some ((v.getD (.patch [])).remove r)) (findChain ipt t' c')
      else findChain ipt t' c' := by
  induction rs generalizing ipt with
  | nil => simp
  | cons r rs ih =>
    rw [List.foldl_cons, ih, findChain_cleanRule, List.foldl_cons]
    by_cases hk : t' = t ∧ c' = c
    · rw [if_pos hk, if_pos hk, if_pos hk]
    · rw [if_neg hk, if_neg hk, if_neg hk]

end MagiTrickle.Rebuild

namespace MagiTrickle.Cleaner

open Iptables GroupScript
open Lib Lib.Runs
open Netfilter (Family)
open Rebuild (Engine)

/-! ## The staging, chain by chain -/

section Staging

variable {snap : Tables}

def cleanedChain (pre : Bytes) (c : ChainRules) (v : Option Chain) : Option Chain :=
  if Engine.isOwn pre c.name then some .delete
  else (c.rules.filter (Engine.isJump pre)).foldl
    (fun v r => some ((v.getD (.patch [])).remove r)) v

theorem cleanChain_snd (pre t : Bytes) (ipt : Ipt) (c : ChainRules) :
    Engine.cleanChain pre t ipt c = ((Engine.cleanChain pre t ipt c).1, none) := by
  unfold Engine.cleanChain
  split
  · rfl
  · rw [untilErr_eq_foldl (Rebuild.cleanRule_snd t c.name)]

theorem findChain_cleanChain (pre t : Bytes) (ipt : Ipt) (c : ChainRules) (t' c' : Bytes) :
    findChain (Engine.cleanChain pre t ipt c).1 t' c' =
      if t' = t ∧ c' = c.name then cleanedChain pre c (findChain ipt t' c')
      else findChain ipt t' c' := by
  unfold Engine.cleanChain cleanedChain
  by_cases hown : Engine.isOwn pre c.name = true
  · rw [if_pos hown, if_pos hown, registerChainDelete, findChain_registerChain]
  · rw [if_neg hown, if_neg hown, untilErr_eq_foldl (Rebuild.cleanRule_snd t c.name),
      Rebuild.findChain_cleanRules]

theorem cleanTables_eq_foldl (pre : Bytes) (ipt : Ipt) (snap : Tables) :
    Engine.cleanTables pre ipt snap =
      (snap.foldl (fun ipt t => t.chains.foldl
        (fun ipt c => (Engine.cleanChain pre t.name ipt c).1) ipt) ipt, none) := by
  unfold Engine.cleanTables
  refine untilErr_eq_foldl (fun ipt t => ?_) ipt snap
  exact untilErr_eq_foldl (cleanChain_snd pre t.name) ipt t.chains

theorem cleanTables_snd (pre : Bytes) (ipt : Ipt) (snap : Tables) :
    Engine.cleanTables pre ipt snap = ((Engine.cleanTables pre ipt snap).1, none) := by
  rw [cleanTables_eq_foldl]

theorem findChain_cleanTables (h : snap.WF) (pre : Bytes) (ipt : Ipt) (t c : Bytes) :
    findChain (Engine.cleanTables pre ipt snap).1 t c =
      (chainOf snap t c).elim (findChain ipt t c) fun rules =>
        cleanedChain pre ⟨c, rules⟩ (findChain ipt t c) := by
  -- inside a table, and then over the tables
  have hinner : ∀ (ipt : Ipt), ∀ tr ∈ snap, ∀ (t' : Bytes),
      findChain (tr.chains.foldl (fun ipt c => (Engine.cleanChain pre tr.name ipt c).1) ipt) t' =
      if t' = tr.name then fun c' => (tr.chains.find? fun x => x.name = c').elim
        (findChain ipt t' c') fun x => cleanedChain pre x (findChain ipt t' c')
      else findChain ipt t' := by
    intro ipt tr htr t'
    funext c'
    by_cases ht : t' = tr.name
    · subst ht
      rw [if_pos rfl]
      refine Keyed.view_foldl (v := fun ipt c' => findChain ipt tr.name c')
        (fun ipt x _ c' => ?_) (h.tables tr htr).nodup ipt c'
      rw [findChain_cleanChain]
      simp only [true_and]
    · rw [if_neg ht]
      induction tr.chains generalizing ipt with
      | nil => rfl
      | cons x xs ih =>
        rw [List.foldl_cons, ih, findChain_cleanChain, if_neg fun hk => ht hk.1]
  rw [cleanTables_eq_foldl, Keyed.view_foldl (v := findChain) (u := fun tr g c' =>
    (tr.chains.find? fun x => x.name = c').elim (g c') fun x => cleanedChain pre x (g c'))
    hinner h.nodup]
  unfold chainOf
  cases snap.find? fun tr => tr.name = t with
  | none => rfl
  | some tr =>
    rw [Option.elim_some, Option.bind_some]
    cases hc : tr.chains.find? fun x => x.name = c with
    | none => rfl
    | some x =>
      obtain rfl : x.name = c := by simpa using List.find?_some hc
      rfl

end Staging

/-! ## The clean-up -/

def failure {σ : Type} : Option (Engine σ × Except Err Bytes) → Option Err
  | some (_, .error err) => some err
  | _ => none

/-- `mt_netfilter_clean_iptables`: both families, also after an error; the first error is
returned. -/
def cleanIptables {σ : Type} (exe : Executable σ) (raised : Family → Bool × Bool) (pre : Bytes)
    (ipts : Family → Option (Engine σ)) :
    (Family → Option (Engine σ × Except Err Bytes)) × Option Err :=
  let cleaned := fun f => (ipts f).map (Engine.cleanOne exe pre (raised f))
  (cleaned, failure (cleaned .v4) <|> failure (cleaned .v6))

def fresh {σ : Type} (kernels : Family → Option σ) (f : Family) : Option (Engine σ) :=
  (kernels f).map (⟨baseEngine, ·⟩)

/-! ## What it should do -/

def jumpText (pre : Bytes) : Bytes := str "-j " ++ pre

def JumpsTo (c : Bytes) (r : Iptables.Rule) : Prop := [str "-j", c] <:+: r

/-- No chain with the prefix jumps to another one. -/
def Apart (pre : Bytes) (ts : Tables) : Prop :=
  ∀ t ∈ ts, ∀ c ∈ t.chains, ∀ c' ∈ t.chains, pre <+: c.name → pre <+: c'.name →
    c'.name ≠ c.name → ∀ r ∈ c.rules, ¬ JumpsTo c'.name r

/-- The contents without the chains with the prefix, and without the rules that contain a text. -/
def without (pre text : Bytes) (ts : Tables) : Tables :=
  ts.map fun t => ⟨t.name, (t.chains.filter fun c => ¬ pre <+: c.name).map fun c =>
    ⟨c.name, c.rules.filter fun r => ¬ text <:+: ruleString r⟩⟩

/-- What is ours is gone, and the rest is as it was and in its order. -/
structure Cleaned (pre : Bytes) (ts ts' : Tables) : Prop where
  chains : ∀ t ∈ ts', ∀ c ∈ t.chains, ¬ pre <+: c.name
  rules : ∀ t ∈ ts', ∀ c ∈ t.chains, ∀ r ∈ c.rules, ¬ jumpText pre <:+: ruleString r
  rest : ts' = without pre (jumpText pre) ts

/-- When the executable comes to the line that deletes a chain, no rule of the table jumps to it. -/
def JumpsFirst (ts : Tables) (text : Bytes) : Prop :=
  ∀ before after c, text.splitOn 10 = before ++ (str "-X " ++ c) :: after →
    ∃ ts₁ t, before.foldlM restoreLine ⟨ts, none⟩ = .ok ⟨ts₁, some t⟩ ∧
      ∀ c' rules, chainOf ts₁ t c' = some rules → ∀ r ∈ rules, ¬ JumpsTo c r

/-- In the chains that stay, a rule with the part of the text that the buffer holds contains all
of it. -/
def Distinct (pre : Bytes) (ts : Tables) : Prop :=
  ∀ t ∈ ts, ∀ c ∈ t.chains, ¬ pre <+: c.name → ∀ r ∈ c.rules,
    (jumpText pre).take 127 <:+: ruleString r → jumpText pre <:+: ruleString r

/-- A prefix of up to 124 bytes fits. -/
theorem distinct_of_short {pre : Bytes} (h : pre.length ≤ 124) (ts : Tables) : Distinct pre ts := by
  intro t _ c _ _ r _ hr
  have hlen : (jumpText pre).length ≤ 127 := by
    rw [jumpText, List.length_append]
    have hdash : (str "-j ").length = 3 := by decide
    omega
  rwa [List.take_of_length_le hlen] at hr

/-! ## Contents without what is ours -/

section Without

variable {pre text : Bytes} {ts : Tables}

theorem without_wf (h : ts.WF) : (without pre text ts).WF where
  nodup := by
    rw [without, List.map_map]
    exact h.nodup
  tables t ht := by
    obtain ⟨t, hmem, rfl⟩ := List.mem_map.mp ht
    have hwf := h.tables t hmem
    refine ⟨hwf.name, ?_, fun c hc => ?_⟩
    · rw [List.map_map]
      exact hwf.nodup.sublist (List.filter_sublist.map _)
    · obtain ⟨c, hkept, rfl⟩ := List.mem_map.mp hc
      have hcwf := hwf.chains c (List.mem_filter.mp hkept).1
      exact ⟨hcwf.name, fun r hr => hcwf.rules r (List.mem_filter.mp hr).1⟩

theorem chainOf_without (pre text : Bytes) (ts : Tables) (t c : Bytes) :
    chainOf (without pre text ts) t c =
      if pre <+: c then none
      else (chainOf ts t c).map (List.filter fun r => ¬ text <:+: ruleString r) := by
  unfold chainOf without
  rw [List.find?_map]
  show Option.bind (Option.map _ (ts.find? fun x => x.name = t)) _ = _
  cases ts.find? fun x => x.name = t with
  | none => simp
  | some tr =>
    simp only [Option.map_some, Option.bind_some]
    rw [List.find?_map, Option.map_map, List.find?_filter]
    by_cases hc : pre <+: c
    · rw [if_pos hc]
      rw [Option.map_eq_none_iff, List.find?_eq_none]
      intro x _ hx
      simp only [Function.comp_apply, decide_eq_true_eq] at hx
      exact hx.1 (hx.2 ▸ hc)
    · rw [if_neg hc]
      have hsame : ∀ cs : List ChainRules, cs.find? (fun x =>
          decide ((decide ¬ pre <+: x.name) = true ∧ decide (x.name = c) = true)) =
            cs.find? fun x => x.name = c := by
        intro cs
        congr 1
        funext x
        by_cases hx : x.name = c
        · simp [hx, hc]
        · simp [hx]
      simp only [Function.comp_def]
      rw [hsame, Option.map_map]
      rfl

theorem eq_without {ts' : Tables} (h : ts.WF) (h' : ts'.WF) (hw : Within ts' ts)
    (hview : ∀ t c, chainOf ts' t c = chainOf (without pre text ts) t c) :
    ts' = without pre text ts := by
  refine ext_of_shape (without_wf h) h' ?_ hview
  rw [shape_of_within (p := fun c => decide (¬ pre <+: c)) hw h h' fun t c => ?_]
  · rw [without, shape, shape, List.map_map, List.map_map]
    refine List.map_congr_left fun t _ => ?_
    simp only [Function.comp_def, List.map_map, List.filter_map]
  · rw [hview, chainOf_without]
    by_cases hc : pre <+: c <;> simp [hc]

/-- The part of a text in place of the text makes no difference exactly if no rule that stays tells
them apart. -/
theorem without_eq_iff {part : Bytes} (hpart : part <+: text) :
    without pre part ts = without pre text ts ↔ ∀ t ∈ ts, ∀ c ∈ t.chains, ¬ pre <+: c.name →
      ∀ r ∈ c.rules, part <:+: ruleString r → text <:+: ruleString r := by
  have hweaker : ∀ {r : Iptables.Rule}, text <:+: ruleString r → part <:+: ruleString r :=
    fun hr => hpart.isInfix.trans hr
  constructor
  · intro heq t ht c hc hpre r hr hpr
    by_contra hno
    have hchains := (List.map_inj_left.mp heq) t ht
    simp only [TableRules.mk.injEq, true_and] at hchains
    have hrules := (List.map_inj_left.mp hchains) c (List.mem_filter.mpr ⟨hc, by simpa using hpre⟩)
    simp only [ChainRules.mk.injEq, true_and] at hrules
    have hmem : r ∈ c.rules.filter fun r => ¬ text <:+: ruleString r :=
      List.mem_filter.mpr ⟨hr, by simpa using hno⟩
    rw [← hrules] at hmem
    exact absurd hpr (by simpa using (List.mem_filter.mp hmem).2)
  · intro hall
    refine List.map_congr_left fun t ht => ?_
    congr 1
    refine List.map_congr_left fun c hc => ?_
    obtain ⟨hc, hpre⟩ := List.mem_filter.mp hc
    congr 1
    refine List.filter_congr fun r hr => ?_
    have hiff : part <:+: ruleString r ↔ text <:+: ruleString r :=
      ⟨hall t ht c hc (by simpa using hpre) r hr, hweaker⟩
    simp only [hiff]

theorem cleaned_iff {ts' : Tables} (h : ts' = without pre ((jumpText pre).take 127) ts) :
    Cleaned pre ts ts' ↔ Distinct pre ts := by
  rw [Distinct, ← without_eq_iff (List.take_prefix _ _), ← h]
  refine ⟨Cleaned.rest, fun hrest => ⟨?_, ?_, hrest⟩⟩
  · intro t ht c hc
    rw [hrest] at ht
    obtain ⟨t, -, rfl⟩ := List.mem_map.mp ht
    obtain ⟨c, hkept, rfl⟩ := List.mem_map.mp hc
    simpa using (List.mem_filter.mp hkept).2
  · intro t ht c hc r hr
    rw [hrest] at ht
    obtain ⟨t, -, rfl⟩ := List.mem_map.mp ht
    obtain ⟨c, -, rfl⟩ := List.mem_map.mp hc
    simpa using (List.mem_filter.mp hr).2

end Without

/-! ## Jumps and their text -/

theorem unwords_isInfix (s : UInt8) (a ws b : List Bytes) (hws : ws ≠ []) :
    Words.unwords s ws <:+: Words.unwords s (a ++ ws ++ b) := by
  have hfront : Words.unwords s ws <+: Words.unwords s (ws ++ b) := by
    induction ws with
    | nil => exact absurd rfl hws
    | cons w ws ih =>
      cases ws with
      | nil =>
        cases b with
        | nil => exact List.prefix_rfl
        | cons v b =>
          rw [List.cons_append, List.nil_append, Words.unwords_cons_cons, Words.unwords_singleton]
          exact List.prefix_append _ _
      | cons v ws =>
        rw [List.cons_append, List.cons_append, Words.unwords_cons_cons, Words.unwords_cons_cons,
          List.prefix_append_right_inj, List.prefix_cons_inj]
        exact ih (List.cons_ne_nil _ _)
  have hback : ∀ vs : List Bytes, vs ≠ [] →
      Words.unwords s vs <:+ Words.unwords s (a ++ vs) := by
    intro vs hvs
    induction a with
    | nil => exact List.suffix_rfl
    | cons w a ih =>
      obtain ⟨v, rest, hrest⟩ := List.exists_cons_of_ne_nil (List.append_ne_nil_of_right_ne_nil a hvs)
      rw [List.cons_append, hrest, Words.unwords_cons_cons, ← hrest]
      exact (ih.trans (List.suffix_cons _ _)).trans (List.suffix_append _ _)
  rw [List.append_assoc]
  exact hfront.isInfix.trans (hback (ws ++ b) (by simp [hws])).isInfix

/-- A jump to a chain with the prefix contains the text. -/
theorem jumpText_of_jumpsTo {pre c : Bytes} {r : Iptables.Rule} (hc : pre <+: c)
    (h : JumpsTo c r) : jumpText pre <:+: ruleString r := by
  obtain ⟨a, b, rfl⟩ := h
  have htext : jumpText pre <+: Words.unwords 32 [str "-j", c] := by
    rw [Words.unwords_cons_cons, Words.unwords_singleton, jumpText]
    have hdash : str "-j " = str "-j" ++ [32] := by decide
    rw [hdash, List.append_assoc, List.singleton_append, List.prefix_append_right_inj,
      List.prefix_cons_inj]
    exact hc
  exact htext.isInfix.trans (unwords_isInfix 32 a _ b (List.cons_ne_nil _ _))

/-! ## The clean-up of one family -/

section Run

variable {pre : Bytes} {cur ts ts' : Tables}

theorem wf_baseEngine : baseEngine.WF := by
  have hbase : baseEngine =
      (Engine.baseChains.map fun b => Call.registerPatch b.1 b.2).foldl Call.step iptNew := rfl
  rw [hbase]
  refine Ipt.WF.iptNew.run fun c hc => ?_
  obtain ⟨b, hmem, rfl⟩ := List.mem_map.mp hc
  exact (by decide : ∀ b ∈ Engine.baseChains, (Call.registerPatch b.1 b.2).Clean) b hmem

/-- Nothing is staged in a fresh engine. -/
theorem findChain_baseEngine (t c : Bytes) :
    findChain baseEngine t c = none ∨ findChain baseEngine t c = some (.patch []) := by
  have hrun : ∀ (bs : List (Bytes × Bytes)) (ipt : Ipt),
      (findChain ipt t c = none ∨ findChain ipt t c = some (.patch [])) →
      findChain (bs.foldl (fun ipt b => registerChainPatch ipt b.1 b.2) ipt) t c = none ∨
      findChain (bs.foldl (fun ipt b => registerChainPatch ipt b.1 b.2) ipt) t c =
        some (.patch []) := by
    intro bs
    induction bs with
    | nil => exact fun _ h => h
    | cons b bs ih =>
      intro ipt h
      rw [List.foldl_cons]
      refine ih _ ?_
      rw [registerChainPatch, findChain_registerChain]
      split
      · exact .inr rfl
      · exact h
  exact hrun Engine.baseChains iptNew (.inl rfl)

def doomed (pre : Bytes) (rules : List Iptables.Rule) : List Iptables.Rule :=
  rules.filter fun r => (jumpText pre).take 127 <:+: ruleString r

/-- What the cleaner stages in a fresh engine for a chain. -/
inductive Stages (pre c : Bytes) (v : Option (List Iptables.Rule)) : Option Chain → Prop where
  | own (hown : pre <+: c) (hv : v.isSome) : Stages pre c v (some .delete)
  | jumps (hown : ¬ pre <+: c) {rules : List Iptables.Rule} (hv : v = some rules) :
      Stages pre c v (some (.patch (Rebuild.deleteAll [] (doomed pre rules))))
  | nothing (hv : ∀ rules, v = some rules → ¬ pre <+: c ∧ doomed pre rules = []) {ch : Option Chain}
      (hch : ch = none ∨ ch = some (.patch [])) : Stages pre c v ch

theorem stages (h : cur.WF) (hcur : ∀ t c, chainOf cur t c = chainOf ts t c) (t c : Bytes) :
    Stages pre c (chainOf ts t c) (findChain (Engine.cleanTables pre baseEngine cur).1 t c) := by
  rw [findChain_cleanTables h, hcur]
  cases hv : chainOf ts t c with
  | none => exact .nothing (fun rules hrules => by cases hrules) (findChain_baseEngine t c)
  | some rules =>
    rw [Option.elim_some, cleanedChain]
    by_cases hown : pre <+: c
    · rw [if_pos (show Engine.isOwn pre c = true from decide_eq_true hown)]
      exact .own hown rfl
    · rw [if_neg (by simpa [Engine.isOwn] using hown)]
      show Stages _ _ _ ((doomed pre rules).foldl _ _)
      by_cases hnil : doomed pre rules = []
      · rw [hnil]
        refine .nothing (fun rules' hrules => ?_) (findChain_baseEngine t c)
        cases hrules
        exact ⟨hown, hnil⟩
      · rcases findChain_baseEngine t c with hb | hb
        · rw [hb, Rebuild.foldl_remove_none hnil]
          exact .jumps hown rfl
        · rw [hb, Rebuild.foldl_remove_patch]
          exact .jumps hown rfl

theorem script_nothing {ipt : Ipt} {t c : Bytes}
    (h : findChain ipt t c = none ∨ findChain ipt t c = some (.patch []))
    (v : Option (List Iptables.Rule)) : ipt.script t c v = [] := by
  rcases h with h | h
  · rw [Ipt.script, h]
  · rw [Ipt.script, h]
    exact script_eq_nil rfl

/-- Without the rules that are deleted, which are all copies of them. -/
theorem eq_of_deleted {rules l : List Iptables.Rule}
    (hfilter : l.filter (fun r => r ∉ (Rebuild.deleteAll [] (doomed pre rules)).map PatchEntry.rule) =
      rules.filter fun r => r ∉ (Rebuild.deleteAll [] (doomed pre rules)).map PatchEntry.rule)
    (hcount : ∀ e ∈ Rebuild.deleteAll [] (doomed pre rules), l.count e.rule = e.copies) :
    l = rules.filter fun r => ¬ (jumpText pre).take 127 <:+: ruleString r := by
  have hmem : ∀ e ∈ Rebuild.deleteAll [] (doomed pre rules),
      e.option = .delete ∧ e.rule ∈ doomed pre rules := fun e he =>
    (Rebuild.mem_deleteAll he).resolve_left List.not_mem_nil
  have hdoomed : ∀ r, r ∈ (Rebuild.deleteAll [] (doomed pre rules)).map PatchEntry.rule ↔
      r ∈ doomed pre rules := by
    intro r
    constructor
    · intro hr
      obtain ⟨e, he, rfl⟩ := List.mem_map.mp hr
      exact (hmem e he).2
    · intro hr
      obtain ⟨e, he, -, rfl⟩ := mem_deletedRules.mp
        (@Rebuild.deletedRules_deleteAll [] _ _ (.inl hr))
      exact List.mem_map_of_mem he
  have hgone : ∀ r ∈ l, r ∉ (Rebuild.deleteAll [] (doomed pre rules)).map PatchEntry.rule := by
    intro r hr hmap
    obtain ⟨e, he, rfl⟩ := List.mem_map.mp hmap
    have hzero := hcount e he
    rw [PatchEntry.copies, if_pos (hmem e he).1, List.count_eq_zero] at hzero
    exact hzero hr
  rw [List.filter_eq_self.mpr fun r hr => decide_eq_true (hgone r hr)] at hfilter
  rw [hfilter]
  refine List.filter_congr fun r hr => ?_
  have hiff : r ∈ (Rebuild.deleteAll [] (doomed pre rules)).map PatchEntry.rule ↔
      (jumpText pre).take 127 <:+: ruleString r := by
    rw [hdoomed, doomed, List.mem_filter, and_iff_right hr, decide_eq_true_eq]
  simp only [hiff]

/-- What the commit leaves of a chain. -/
theorem chainOf_committed {ipt : Ipt} (h : ipt.WF) (hts : ts.WF) {t c : Bytes}
    (hst : Stages pre c (chainOf ts t c) (findChain ipt t c))
    (hrun : runOps (ipt.script t c (chainOf ts t c)) (chainOf ts t c) = .ok (chainOf ts' t c)) :
    chainOf ts' t c = chainOf (without pre ((jumpText pre).take 127) ts) t c := by
  have hreach := reached_of_script h hts.chainOf hrun
  rw [chainOf_without]
  rw [Ipt.Reached] at hreach
  generalize hf : findChain ipt t c = ch at hst hreach
  cases hst with
  | own hown hv =>
    rw [if_pos hown]
    exact hreach
  | jumps hown hv =>
    rw [if_neg hown, hv, Option.map_some]
    obtain ⟨hsome, hfilter, hcount⟩ := hreach
    rw [hv] at hsome hfilter
    obtain ⟨l, hl⟩ := Option.isSome_iff_exists.mp (hsome rfl)
    rw [hl] at hfilter hcount ⊢
    exact congrArg some (eq_of_deleted hfilter hcount)
  | nothing hv hch =>
    rw [script_nothing (hf ▸ hch)] at hrun
    rw [← Except.ok.inj hrun]
    cases hrules : chainOf ts t c with
    | none => simp
    | some rules =>
      obtain ⟨hown, hnil⟩ := hv rules hrules
      rw [if_neg hown, Option.map_some]
      refine congrArg some (List.filter_eq_self.mpr fun r hr => ?_).symm
      have hr' := List.filter_eq_nil_iff.mp hnil r hr
      simpa using hr'

theorem isSome_of_stages {ipt : Ipt} {t c : Bytes}
    (hst : Stages pre c (chainOf ts t c) (findChain ipt t c))
    (hne : ipt.script t c (chainOf ts t c) ≠ []) : (chainOf ts t c).isSome := by
  generalize hf : findChain ipt t c = ch at hst
  cases hst with
  | own _ hv => exact hv
  | jumps _ hv => rw [hv]; rfl
  | nothing _ hch => exact absurd (script_nothing (hf ▸ hch) _) hne

theorem own_of_stages {c : Bytes} {v : Option (List Iptables.Rule)}
    (hst : Stages pre c v (some .delete)) : pre <+: c := by
  generalize hch : some Chain.delete = ch at hst
  cases hst with
  | own hown _ => exact hown
  | jumps _ _ => cases hch
  | nothing _ hch' => rcases hch' with rfl | rfl <;> cases hch

theorem Apart.not_jumpsTo (h : Apart pre ts) {t c c' : Bytes} {rules : List Iptables.Rule}
    (hc : (chainOf ts t c).isSome) (hc' : chainOf ts t c' = some rules) (hown : pre <+: c)
    (hown' : pre <+: c') (hne : c' ≠ c) : ∀ r ∈ rules, ¬ JumpsTo c r := by
  obtain ⟨tr, htr, hmem⟩ := find?_of_isSome hc
  obtain ⟨cr, hcr, rfl⟩ := List.mem_map.mp hmem
  rw [chainOf, htr, Option.bind_some] at hc'
  obtain ⟨cr', hfind, rfl⟩ := Option.map_eq_some_iff.mp hc'
  obtain rfl : cr'.name = c' := by simpa using List.find?_some hfind
  exact h tr (List.mem_of_find?_eq_some htr) cr' (List.mem_of_find?_eq_some hfind) cr hcr hown' hown
    (Ne.symm hne)

/-- A clean-up that succeeds takes away the chains with the prefix and the rules with the part of
the jump text that fits, each chain after the jumps to it. -/
theorem cleanOne_fresh (h : ts.WF) {raised : Bool × Bool} {e : Engine Tables} {text : Bytes}
    (hok : Engine.cleanOne fake pre raised ⟨baseEngine, ts⟩ = (e, .ok text)) :
    e.kernel = without pre ((jumpText pre).take 127) ts ∧ (Apart pre ts → JumpsFirst ts text) := by
  obtain ⟨snap, hsave, hsnap, hview⟩ := getCurrentRules_fakeSave h
  have hsave' : (fake.save ts).bind getCurrentRules = .ok snap := hsave
  have hipt := wf_cleanTables wf_baseEngine pre hsnap
  have hst := @stages pre _ _ hsnap hview
  simp only [Engine.cleanOne, hsave'] at hok
  rw [cleanTables_snd] at hok
  generalize (Engine.cleanTables pre baseEngine snap).1 = ipt at hok hipt hst
  obtain ⟨cur, ts', hcur, hcommit, hrun, hts', hscript⟩ := commit_fake_run hipt h
  have hres : commit fake raised ipt ts = .ok (ts', transcript ipt cur) := by
    cases hc : commit fake raised ipt ts with
    | error err =>
      simp only [hc] at hok
      cases hok
    | ok x =>
      have hx := commit_raised h hc
      rw [hcommit] at hx
      rw [Except.ok.inj hx]
  simp only [hres] at hok
  cases hok
  have hkernel : ts' = without pre ((jumpText pre).take 127) ts := by
    refine eq_without h hts' ?_ fun t c => chainOf_committed hipt h (hst t c) (hscript t c)
    exact within_transcript hipt h hcur (fun t c => isSome_of_stages (hst t c)) hrun
  refine ⟨hkernel, fun hapart before after c hsplit => ?_⟩
  obtain ⟨before', after', t, hcmds, hbefore⟩ := restore_before_text hipt hsplit ts
  obtain ⟨hdelete, hsome, ts₁, hrun₁, hempty, hothers⟩ := at_drop hipt h hcur hcmds hscript
  refine ⟨ts₁, t, by rw [hbefore, hrun₁]; rfl, fun c' rules hrules r hr => ?_⟩
  have hown : pre <+: c := own_of_stages (hdelete ▸ hst t c)
  by_cases hc : c' = c
  · -- the chain itself is flushed
    rw [hc, hempty] at hrules
    cases hrules
    exact absurd hr List.not_mem_nil
  · rcases hothers c' hc with ⟨-, hfinal⟩ | ⟨hdelete', hkept⟩
    · -- a chain that stays has lost its jumps
      rw [hrules, hkernel, chainOf_without] at hfinal
      split at hfinal
      · cases hfinal
      · obtain ⟨rules', -, hrules'⟩ := Option.map_eq_some_iff.mp hfinal.symm
        rw [← hrules'] at hr
        have hno : ¬ (jumpText pre).take 127 <:+: ruleString r := by
          simpa using (List.mem_filter.mp hr).2
        exact fun hjump => hno ((List.take_prefix _ _).isInfix.trans (jumpText_of_jumpsTo hown hjump))
    · -- a chain that goes has only rules it had
      rcases hkept rules hrules with rfl | hold
      · exact absurd hr List.not_mem_nil
      · exact hapart.not_jumpsTo hsome hold hown (own_of_stages (hdelete' ▸ hst t c')) hc r hr

end Run

/-! ## Both families -/

section Families

variable {pre : Bytes} {kernels : Family → Option Tables} {f : Family} {ts : Tables}

theorem cleanIptables_family (raised : Family → Bool × Bool) (hts : ts ∈ kernels f) :
    (cleanIptables fake raised pre (fresh kernels)).1 f =
      some (Engine.cleanOne fake pre (raised f) ⟨baseEngine, ts⟩) := by
  show ((kernels f).map _).map _ = _
  rw [show kernels f = some ts from hts]
  rfl

/-- What a successful clean-up does to a family. -/
theorem cleanIptables_result {raised : Family → Bool × Bool} (h : ts.WF) (hts : ts ∈ kernels f)
    (hok : (cleanIptables fake raised pre (fresh kernels)).2 = none) :
    ∃ e text, (cleanIptables fake raised pre (fresh kernels)).1 f = some (e, .ok text) ∧
      e.kernel = without pre ((jumpText pre).take 127) ts ∧ (Apart pre ts → JumpsFirst ts text) := by
  have hgood : failure ((cleanIptables fake raised pre (fresh kernels)).1 f) = none := by
    have hboth := Option.or_eq_none_iff.mp ((Option.orElse_eq_or ..).symm.trans hok)
    cases f with
    | v4 => exact hboth.1
    | v6 => exact hboth.2
  rw [cleanIptables_family raised hts] at hgood ⊢
  cases hone : Engine.cleanOne fake pre (raised f) ⟨baseEngine, ts⟩ with
  | mk e out =>
    rw [hone] at hgood
    cases out with
    | error err => cases hgood
    | ok text => exact ⟨e, text, rfl, cleanOne_fresh h hone⟩

/-- A clean-up that is not canceled succeeds. -/
theorem cleanIptables_ok (hwf : ∀ f, ∀ ts ∈ kernels f, ts.WF) :
    (cleanIptables fake (fun _ => (false, false)) pre (fresh kernels)).2 = none := by
  have hone : ∀ f, failure ((fresh kernels f).map (Engine.cleanOne fake pre (false, false))) = none := by
    intro f
    rw [fresh]
    cases hts : kernels f with
    | none => rfl
    | some ts =>
      obtain ⟨snap, hsave, hsnap, -⟩ := getCurrentRules_fakeSave (hwf f ts hts)
      have hsave' : (fake.save ts).bind getCurrentRules = .ok snap := hsave
      obtain ⟨ts', out, hcommit, -⟩ :=
        commit_fake (wf_cleanTables wf_baseEngine pre hsnap) (hwf f ts hts)
      show failure (some (Engine.cleanOne fake pre (false, false) ⟨baseEngine, ts⟩)) = none
      simp only [Engine.cleanOne, hsave']
      rw [cleanTables_snd]
      simp only [hcommit]
      rfl
  exact (Option.orElse_eq_or ..).trans (Option.or_eq_none_iff.mpr ⟨hone .v4, hone .v6⟩)

end Families

/-- A successful clean-up takes away exactly what is ours, jumps first, if and only if no rule of
the other chains tells the text from the part of it that the buffer holds. -/
theorem clean_exact (pre : Bytes) (raised : Family → Bool × Bool)
    (kernels : Family → Option Tables) (hwf : ∀ f, ∀ ts ∈ kernels f, ts.WF)
    (hapart : ∀ f, ∀ ts ∈ kernels f, Apart pre ts)
    (hok : (cleanIptables fake raised pre (fresh kernels)).2 = none) :
    (∀ f, ∀ ts ∈ kernels f, ∃ e text,
      (cleanIptables fake raised pre (fresh kernels)).1 f = some (e, .ok text) ∧
        Cleaned pre ts e.kernel ∧ JumpsFirst ts text) ↔
      ∀ f, ∀ ts ∈ kernels f, Distinct pre ts := by
  refine forall_congr' fun f => forall_congr' fun ts => forall_congr' fun hts => ?_
  obtain ⟨e, text, heq, hkernel, hjumps⟩ := cleanIptables_result (hwf f ts hts) hts hok
  rw [← cleaned_iff hkernel]
  constructor
  · rintro ⟨e', text', heq', hclean, -⟩
    rw [heq] at heq'
    cases heq'
    exact hclean
  · exact fun hclean => ⟨e, text, heq, hclean, hjumps (hapart f ts hts)⟩

def twoGroups : Tables :=
  [⟨str "filter", [⟨str "FORWARD", [[str "-j", str "MT_1"], [str "-i", str "br0", str "-j", str "DROP"],
      [str "-j", str "MT_1"], [str "-j", str "MT_2"]]⟩,
    ⟨str "MT_1", [[str "-j", str "ACCEPT"]]⟩, ⟨str "MT_2", []⟩]⟩,
   ⟨str "nat", [⟨str "MT_1", [[str "-j", str "MASQUERADE"]]⟩,
    ⟨str "POSTROUTING", [[str "-j", str "MT_1"]]⟩, ⟨str "OTHER", [[str "-j", str "MT_1"]]⟩]⟩]

theorem clean_exact_twoGroups :
    ∃ e text, (cleanIptables fake (fun _ => (false, false)) (str "MT_")
        (fresh fun f => if f = .v4 then some twoGroups else none)).1 .v4 = some (e, .ok text) ∧
      Cleaned (str "MT_") twoGroups e.kernel ∧ JumpsFirst twoGroups text := by
  have honly : ∀ f, ∀ ts ∈ (if f = Family.v4 then some twoGroups else none), ts = twoGroups := by
    intro f ts hts
    split at hts
    · exact (Option.some.inj hts).symm
    · cases hts
  have hwf : ∀ f, ∀ ts ∈ (if f = Family.v4 then some twoGroups else none), ts.WF := by
    intro f ts hts
    rw [honly f ts hts]
    decide +kernel
  refine (clean_exact (str "MT_") (fun _ => (false, false)) _ hwf ?_ (cleanIptables_ok hwf)).mpr
    (fun f ts _ => distinct_of_short (by decide) ts) .v4 twoGroups rfl
  intro f ts hts
  rw [honly f ts hts]
  unfold Apart JumpsTo
  decide +kernel

def longPrefix : Bytes := List.replicate 125 65

def otherJump : Tables :=
  [⟨str "filter", [⟨str "INPUT", [[str "-j", List.replicate 124 65]]⟩]⟩]

theorem longPrefix_takes_other : ¬ ∀ (pre : Bytes) (raised : Family → Bool × Bool)
    (kernels : Family → Option Tables), (∀ f, ∀ ts ∈ kernels f, ts.WF) →
    (∀ f, ∀ ts ∈ kernels f, Apart pre ts) →
    (cleanIptables fake raised pre (fresh kernels)).2 = none →
    ∀ f, ∀ ts ∈ kernels f, ∃ e text,
      (cleanIptables fake raised pre (fresh kernels)).1 f = some (e, .ok text) ∧
        Cleaned pre ts e.kernel ∧ JumpsFirst ts text := by
  intro h
  have hwf : ∀ f : Family, ∀ ts ∈ (fun _ => some otherJump : Family → Option Tables) f, ts.WF := by
    rintro f ts ⟨⟩
    decide +kernel
  have hapart : ∀ f : Family, ∀ ts ∈ (fun _ => some otherJump : Family → Option Tables) f,
      Apart longPrefix ts := by
    rintro f ts ⟨⟩
    unfold Apart JumpsTo
    decide +kernel
  have hok := @cleanIptables_ok longPrefix _ hwf
  obtain ⟨e, text, heq, hclean, -⟩ := h longPrefix _ _ hwf hapart hok .v4 otherJump rfl
  obtain ⟨e', text', heq', hkernel, -⟩ := cleanIptables_result (hwf .v4 otherJump rfl) rfl hok
  rw [heq] at heq'
  cases heq'
  have hdistinct := (cleaned_iff hkernel).mp hclean
  have hrule := hdistinct _ (List.mem_singleton_self _) _ (List.mem_singleton_self _)
    (by decide +kernel) _ (List.mem_singleton_self _) (by decide +kernel)
  exact absurd hrule (by decide +kernel)

end MagiTrickle.Cleaner
