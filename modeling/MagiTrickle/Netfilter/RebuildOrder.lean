import MagiTrickle.Netfilter.Cleaner

/-!
# What a rebuild depends on

A rebuild takes the chains and jumps of the daemon out of the tables and puts
them back. But the commit of the cleaner carries out everything else that is
still staged as well: jumps that are staged and that the tables lack are put
back by the cleaner itself, in the order of their staging (`leftover`), and the
staging that follows finds them in place. `rebuild_agrees_iff` says for any two
histories when the tables end up the same.
-/

namespace MagiTrickle.Rebuild

open Iptables
open Netfilter (Family)
open Lib Lib.Runs

/-! ## What should be there -/

namespace State

variable {σ : Type}

/-- The links a rebuild stages, in configured order. -/
def enabledLinks (s : State σ) : List Link :=
  (s.links .group ++ s.links .subscription).filter Link.enabled

/-- The jumps of a chain in configured order. Two rulesets with one name share a jump, in the place
of the later one. -/
def wantedJumps (p : Prefixes) (s : State σ) (t c : Bytes) : List Iptables.Rule :=
  if (t, c) ∈ linkBases then (s.enabledLinks.map fun l => jump (chainName p l.id)).dedup
  else if (t, c) = remapBase then
    (s.remap.toList.filter PortRemap.enabled).map fun _ => jump (remapChain p)
  else []

/-- The mark in the chain of an id: of the last enabled ruleset that has it. -/
def markOf (s : State σ) (id : Id) : Option UInt32 :=
  (s.enabledLinks.reverse.find? fun l => l.id = id).map Link.mark

end State

def Link.settings (l : Link) : Id × Word := (l.id, l.iface)

/-- The jumps in a chain, as the cleaner recognises them. -/
def jumpsIn (p : Prefixes) (ts : Tables) (t c : Bytes) : List Iptables.Rule :=
  ((chainOf ts t c).getD []).filter (Engine.isJump p.chain)

/-- The rules that the commit of the cleaner adds to a chain: they are staged, and the chain lacks
them. A chain that the cleaner deletes gets none. -/
def leftover (p : Prefixes) (e : Engine Tables) (t c : Bytes) : List Iptables.Rule :=
  match findChain e.ipt t c with
  | some (.patch es) =>
    if Engine.isOwn p.chain c ∧ (chainOf e.kernel t c).isSome then []
    else missingRules es ((chainOf e.kernel t c).getD [])
  | _ => []

/-! ## The commit of the cleaner -/

section Clean

/-- Deletions of rules that are there do not change what is missing. -/
theorem missingRules_deleteAll {l : List Iptables.Rule} (es : List PatchEntry)
    {rs : List Iptables.Rule} (h : ∀ r ∈ rs, r ∈ l) :
    missingRules (deleteAll es rs) l = missingRules es l := by
  induction rs generalizing es with
  | nil => rfl
  | cons r rs ih =>
    rw [show deleteAll es (r :: rs) = deleteAll (addRule es ⟨.delete, 0, r⟩) rs from rfl,
      ih _ fun x hx => h x (List.mem_cons_of_mem _ hx)]
    have hr := h r (List.mem_cons_self ..)
    unfold missingRules addRule
    rw [List.filter_append, List.filter_filter]
    simp only [ne_eq, not_true_eq_false, false_and, decide_false, Bool.false_eq_true,
      not_false_eq_true, List.filter_cons_of_neg, List.filter_nil, List.append_nil]
    congr 1
    apply List.filter_congr
    intro e _
    by_cases he : e.rule = r
    · simp [he, hr]
    · simp [he]

theorem eq_of_forall_eq {l l' : List Iptables.Rule} {a : Iptables.Rule} (h : ∀ x ∈ l, x = a)
    (h' : ∀ x ∈ l', x = a) (hcount : l.count a = l'.count a) : l = l' := by
  have hrep : ∀ {k : List Iptables.Rule}, (∀ x ∈ k, x = a) → k = List.replicate (k.count a) a := by
    intro k hk
    have heq := List.eq_replicate_of_mem hk
    rw [heq, List.count_replicate_self]
  rw [hrep h, hrep h', hcount]

variable {p : Prefixes} {A : Id → Prop} {B : Prop} {t c : Bytes}

theorem EntryStaged.isJump {e : PatchEntry} (h : EntryStaged p A B t c e)
    (ho : e.option ≠ .delete) : Engine.isJump p.chain e.rule = true := by
  rcases h with h | ⟨-, -, id, -, hr⟩ | ⟨-, -, -, hr⟩
  · exact absurd h ho
  · rw [hr]
    exact isJump_jump p (isOwn_chainName p id)
  · rw [hr]
    exact isJump_jump p (isOwn_remapChain p)

theorem not_remapBase_of_mem (h : (t, c) ∈ linkBases) : (t, c) ≠ remapBase := by
  intro heq
  rw [heq] at h
  exact absurd h (by decide)

/-- Outside the base chain of the port remap nothing is inserted. -/
theorem appendsOrDeletes_of_staged {es : List PatchEntry}
    (h : ∀ e ∈ es, EntryStaged p A B t c e) (hb : (t, c) ≠ remapBase) : AppendsOrDeletes es := by
  intro e he
  rcases h e he with h | ⟨ho, -⟩ | ⟨-, hb', -⟩
  · exact .inr h
  · exact .inl ho
  · exact absurd hb' hb

/-- In that chain nothing is appended. -/
theorem rule_of_staged {e : PatchEntry} (h : EntryStaged p A B t c e) (hb : (t, c) = remapBase)
    (ho : e.option ≠ .delete) : e.option = .insert ∧ e.rule = jump (remapChain p) := by
  rcases h with h | ⟨-, hb', -⟩ | ⟨ho, -, -, hr⟩
  · exact absurd h ho
  · exact absurd hb (not_remapBase_of_mem hb')
  · exact ⟨ho, hr⟩

/-- With every jump of the chain deleted, the jumps that are left are those that were staged and
missing. -/
theorem jumps_of_cleaned {es : List PatchEntry} (hes : ∀ e ∈ es, EntryStaged p A B t c e)
    {v v' : Option (List Iptables.Rule)} (hv : ∀ r ∈ v.getD [], ∀ x ∈ r, IsToken x)
    (hc : (Chain.patch es).Clean)
    (hrun : runOps ((Chain.patch (deleteAll es ((v.getD []).filter (Engine.isJump p.chain)))).script c v)
      v = .ok v') :
    (v'.getD []).filter (Engine.isJump p.chain) = missingRules es (v.getD []) := by
  generalize hl : v.getD [] = l at hv hrun ⊢
  generalize hes₁ : deleteAll es (l.filter (Engine.isJump p.chain)) = es₁ at hrun
  have hclean : (Chain.patch es₁).Clean :=
    hes₁ ▸ clean_deleteAll hc fun r hr => hv r (List.mem_filter.mp hr).1
  have hstaged : ∀ e ∈ es₁, EntryStaged p A B t c e := by
    intro e he
    rcases mem_deleteAll (hes₁ ▸ he) with he | ho
    · exact hes e he
    · exact .inl ho.1
  have hdeleted : ∀ x ∈ l, Engine.isJump p.chain x = true → x ∈ deletedRules es₁ := fun x hx hj =>
    hes₁ ▸ deletedRules_deleteAll (.inl (List.mem_filter.mpr ⟨hx, hj⟩))
  have hmissing : missingRules es₁ l = missingRules es l :=
    hes₁ ▸ missingRules_deleteAll es fun r hr => (List.mem_filter.mp hr).1
  -- what is staged and not deleted is not there
  have hnew : ∀ e ∈ es₁, e.option ≠ .delete → e.rule ∉ l := by
    intro e he ho hmem
    obtain ⟨e', he', ho', hr⟩ := mem_deletedRules.mp
      (hdeleted e.rule hmem ((hstaged e he).isJump ho))
    have : e' = e := List.inj_on_of_nodup_map hclean.1 he' he hr
    exact ho (this ▸ ho')
  rw [← hmissing]
  by_cases hb : (t, c) = remapBase
  · -- the jump to the port remap is the only one, if any
    have hone : ∀ e ∈ es₁, e.option ≠ .delete → e.rule = jump (remapChain p) :=
      fun e he ho => (rule_of_staged (hstaged e he) hb ho).2
    obtain ⟨w, hw, hreach⟩ := script_reaches hclean c (v := v) (hl.symm ▸ hv)
    rw [hrun] at hw
    cases hw
    have hmem : ∀ x ∈ v'.getD [], Engine.isJump p.chain x = true →
        ∃ e ∈ es₁, e.option ≠ .delete ∧ e.rule = x := by
      intro x hx hj
      have hin : x ∈ es₁.map PatchEntry.rule := by
        by_contra hnot
        have hx' : x ∈ (v'.getD []).filter fun r => r ∉ es₁.map PatchEntry.rule :=
          List.mem_filter.mpr ⟨hx, decide_eq_true hnot⟩
        rw [hreach.2.1, hl] at hx'
        obtain ⟨e, he, -, hr⟩ := mem_deletedRules.mp (hdeleted x (List.mem_filter.mp hx').1 hj)
        exact hnot (List.mem_map.mpr ⟨e, he, hr⟩)
      obtain ⟨e, he, rfl⟩ := List.mem_map.mp hin
      refine ⟨e, he, fun ho => ?_, rfl⟩
      have hcount := hreach.2.2 e he
      rw [PatchEntry.copies, if_pos ho, List.count_eq_zero] at hcount
      exact hcount hx
    refine eq_of_forall_eq (a := jump (remapChain p)) ?_ ?_ ?_
    · intro x hx
      obtain ⟨e, he, ho, rfl⟩ := hmem x (List.mem_filter.mp hx).1 (List.mem_filter.mp hx).2
      exact hone e he ho
    · intro x hx
      obtain ⟨e, he, ho, -, rfl⟩ := mem_missingRules.mp hx
      exact hone e he ho
    · rw [List.count_filter (isJump_jump p (isOwn_remapChain p))]
      by_cases hex : ∃ e ∈ es₁, e.option ≠ .delete
      · obtain ⟨e, he, ho⟩ := hex
        have hcount := hreach.2.2 e he
        rw [PatchEntry.copies, if_neg ho, hone e he ho] at hcount
        rw [hcount, List.count_eq_one_of_mem (nodup_missingRules hclean.1 l)]
        exact mem_missingRules.mpr ⟨e, he, ho, hnew e he ho, hone e he ho⟩
      · have hno : ∀ x : Iptables.Rule, x ∉ missingRules es₁ l := fun x hx => by
          obtain ⟨e, he, ho, -⟩ := mem_missingRules.mp hx
          exact hex ⟨e, he, ho⟩
        rw [List.count_eq_zero.mpr (hno _), List.count_eq_zero]
        intro hx
        obtain ⟨e, he, ho, -⟩ := hmem _ hx (isJump_jump p (isOwn_remapChain p))
        exact hex ⟨e, he, ho⟩
  · have horder := getD_of_patch hclean (v := v) (hl.symm ▸ hv)
      (appendsOrDeletes_of_staged hstaged hb) ?_ hrun
    · rw [horder, hl, List.filter_append, List.filter_filter]
      have hgone : l.filter (fun r => Engine.isJump p.chain r && decide (r ∉ deletedRules es₁)) = [] := by
        rw [List.filter_eq_nil_iff]
        intro x hx hboth
        simp only [Bool.and_eq_true, decide_eq_true_eq] at hboth
        exact hboth.2 (hdeleted x hx hboth.1)
      rw [hgone, List.nil_append, List.filter_eq_self]
      intro x hx
      obtain ⟨e, he, ho, -, rfl⟩ := mem_missingRules.mp hx
      exact (hstaged e he).isJump ho
    · intro e he ho
      rw [hl, List.count_eq_zero.mpr (hnew e he (by simp [ho]))]
      exact Nat.zero_le 1

/-- A chain that is the daemon's to patch: a base chain, or one without the prefix. -/
def Patched (p : Prefixes) (t c : Bytes) : Prop :=
  (t, c) ∈ Engine.baseChains ∨ Engine.isOwn p.chain c = false

theorem not_override_of_patched (h : Patched p t c) {rules : List Iptables.Rule} :
    ¬ ChainStaged p A B t c (.override rules) := by
  rintro (⟨-, id, -, rfl⟩ | ⟨-, rfl, rfl⟩)
  · rcases h with h | h
    · exact baseChains_ne_chainName p h id rfl
    · rw [isOwn_chainName] at h
      cases h
  · rcases h with h | h
    · exact baseChains_ne_remapChain p h rfl
    · rw [isOwn_remapChain] at h
      cases h

variable {e : Engine Tables} {ts : Tables}

/-- The jumps in the tables after the commit of the cleaner. -/
theorem jumpsIn_clean (h : EngineOk p A B e) {snap : Tables} (hsnap : snap.WF)
    (hview : ∀ t c, chainOf snap t c = chainOf e.kernel t c)
    (hrun : ∀ t c, runOps ((Engine.cleanTables p.chain e.ipt snap).1.script t c (chainOf e.kernel t c))
      (chainOf e.kernel t c) = .ok (chainOf ts t c)) (hp : Patched p t c) :
    jumpsIn p ts t c = leftover p e t c := by
  have hrun := hrun t c
  have hreg := Cleaner.findChain_cleanTables hsnap p.chain e.ipt t c
  have hstaged := h.staged t c
  have hclean := fun ch (hf : findChain e.ipt t c = some ch) => (h.ipt.findChain hf).2.2
  have htok := h.kernel.chainOf (t := t) (c := c)
  rw [hview] at hreg
  unfold Ipt.script at hrun
  rw [hreg] at hrun
  unfold jumpsIn leftover
  generalize chainOf e.kernel t c = v at hrun htok
  cases v with
  | none =>
    -- the tables lack the chain, and the registration stays
    simp only [Option.elim_none] at hrun
    cases hf : findChain e.ipt t c with
    | none =>
      rw [hf] at hrun
      rw [← Except.ok.inj hrun]
      rfl
    | some ch =>
      rw [hf] at hrun
      cases ch with
      | override rules => exact absurd (hstaged _ hf) (not_override_of_patched hp)
      | delete =>
        obtain ⟨w, hw, hreach⟩ := script_reaches (c := .delete) trivial c (v := none) htok
        rw [hrun] at hw
        cases hw
        rw [show chainOf ts t c = none from hreach]
        rfl
      | patch es =>
        simp only [Option.isSome_none, Bool.false_eq_true, and_false, if_false]
        exact jumps_of_cleaned (v := none) (hstaged _ hf).2 htok (hclean _ hf) hrun
  | some rules =>
    simp only [Option.elim_some, Cleaner.cleanedChain] at hrun
    by_cases hown : Engine.isOwn p.chain c = true
    · -- the cleaner deletes the chain
      rw [if_pos hown] at hrun
      obtain ⟨w, hw, hreach⟩ := script_reaches (c := .delete) trivial c (v := some rules) htok
      rw [hrun] at hw
      cases hw
      rw [show chainOf ts t c = none from hreach]
      split
      · rw [if_pos ⟨hown, rfl⟩]
        rfl
      · rfl
    · rw [if_neg hown] at hrun
      cases hf : findChain e.ipt t c with
      | none =>
        rw [hf] at hrun
        by_cases hrs : rules.filter (Engine.isJump p.chain) = []
        · rw [hrs] at hrun
          rw [← Except.ok.inj hrun]
          exact hrs
        · rw [foldl_remove_none hrs] at hrun
          exact jumps_of_cleaned (v := some rules) (fun en hen =>
            (absurd hen List.not_mem_nil : EntryStaged p A B t c en)) htok ⟨List.nodup_nil, by simp⟩ hrun
      | some ch =>
        rw [hf] at hrun
        cases ch with
        | override rules => exact absurd (hstaged _ hf) (not_override_of_patched hp)
        | delete => exact absurd (hstaged _ hf) hown
        | patch es =>
          rw [foldl_remove_patch] at hrun
          simp only
          rw [if_neg fun hh => hown hh.1]
          exact jumps_of_cleaned (v := some rules) (hstaged _ hf).2 htok (hclean _ hf) hrun

end Clean

/-! ## What a rebuild stages -/

section Prepared

variable {p : Prefixes} {t c : Bytes}

def atAll (calls : List Call) (t c : Bytes) (v : Option Chain) : Option Chain :=
  calls.foldl (fun v call => call.at t c v) v

@[simp] theorem atAll_nil (v : Option Chain) : atAll [] t c v = v := rfl

theorem atAll_append (calls calls' : List Call) (v : Option Chain) :
    atAll (calls ++ calls') t c v = atAll calls' t c (atAll calls t c v) :=
  List.foldl_append ..

def IsFill (t c : Bytes) (call : Call) : Prop :=
  call = .registerOverride t c ∨ ∃ r, call = .append t c r

theorem key_of_isFill {call : Call} (h : IsFill t c call) : call.key = (t, c) := by
  rcases h with rfl | ⟨r, rfl⟩ <;> rfl

theorem mem_buildIptablesRules {l : Link} {f : Family} {call : Call}
    (h : call ∈ buildIptablesRules p l f) :
    (∃ t ∈ linkTables, IsFill t (chainName p l.id) call) ∨ call.key ∈ linkBases := by
  rw [buildIptablesRules, List.mem_append, List.mem_append] at h
  rcases h with (h | h) | h
  · exact .inl ⟨_, by decide, .inl (List.mem_singleton.mp h)⟩
  · split at h
    · exact absurd h List.not_mem_nil
    · exact .inl ⟨_, by decide, .inr ⟨_, List.mem_singleton.mp h⟩⟩
  · simp only [List.mem_cons, List.not_mem_nil, or_false] at h
    rcases h with rfl | rfl | rfl | rfl | rfl | rfl | rfl | rfl | rfl
    · exact .inr (by decide : (str "filter", str "FORWARD") ∈ linkBases)
    · exact .inl ⟨_, by decide, .inl rfl⟩
    · exact .inl ⟨_, by decide, .inr ⟨_, rfl⟩⟩
    · exact .inl ⟨_, by decide, .inr ⟨_, rfl⟩⟩
    · exact .inl ⟨_, by decide, .inr ⟨_, rfl⟩⟩
    · exact .inr (by decide : (str "mangle", str "PREROUTING") ∈ linkBases)
    · exact .inl ⟨_, by decide, .inl rfl⟩
    · exact .inl ⟨_, by decide, .inr ⟨_, rfl⟩⟩
    · exact .inr (by decide : (str "nat", str "POSTROUTING") ∈ linkBases)

theorem mem_buildRules {r : PortRemap} {f : Family} {call : Call} (h : call ∈ buildRules p r f) :
    IsFill (str "nat") (remapChain p) call ∨ call.key = remapBase := by
  rw [buildRules, List.mem_append, List.mem_append] at h
  rcases h with (h | h) | h
  · exact .inl (.inl (List.mem_singleton.mp h))
  · obtain ⟨a, -, h⟩ := List.mem_flatMap.mp h
    simp only [List.mem_cons, List.not_mem_nil, or_false] at h
    rcases h with rfl | rfl
    · exact .inl (.inr ⟨_, rfl⟩)
    · exact .inl (.inr ⟨_, rfl⟩)
  · obtain rfl := List.mem_singleton.mp h
    exact .inr rfl

theorem atAll_link_base (l : Link) (f : Family) (h : (t, c) ∈ linkBases) (v : Option Chain) :
    atAll (buildIptablesRules p l f) t c v =
      v.map fun ch => ch.append (jump (chainName p l.id)) := by
  have hne : c ≠ chainName p l.id := by
    refine baseChains_ne_chainName p (t := t) ?_ l.id
    exact (by decide : ∀ b ∈ linkBases, b ∈ Engine.baseChains) _ h
  simp only [linkBases, List.mem_cons, Prod.mk.injEq, List.not_mem_nil, or_false] at h
  unfold buildIptablesRules
  rw [atAll_append, atAll_append]
  have hself : ∀ call : Call, call.key = (str "filter", chainName p l.id) → call.key ≠ (t, c) :=
    fun call hk heq => hne (Prod.mk.inj (heq.symm.trans hk)).2
  have h₁ : atAll [.registerOverride (str "filter") (chainName p l.id)] t c v = v :=
    foldl_at_of_ne (fun call hc => hself call (by rw [List.mem_singleton.mp hc]; rfl)) v
  have h₂ : ∀ (b : Prop) [Decidable b] (r : Iptables.Rule),
      atAll (if b then [] else [.append (str "filter") (chainName p l.id) r]) t c v = v := by
    intro b _ r
    split
    · rfl
    · exact foldl_at_of_ne (fun call hc => hself call (by rw [List.mem_singleton.mp hc]; rfl)) v
  rw [h₁, h₂]
  simp only [atAll, List.foldl_cons, List.foldl_nil, Call.at, hne, and_false, if_false]
  rcases h with ⟨rfl, rfl⟩ | ⟨rfl, rfl⟩ | ⟨rfl, rfl⟩ <;> rfl

theorem atAll_remap_base (r : PortRemap) (f : Family) (v : Option Chain) :
    atAll (buildRules p r f) remapBase.1 remapBase.2 v =
      v.map fun ch => ch.insert 1 (jump (remapChain p)) := by
  have hne : remapBase.2 ≠ remapChain p :=
    baseChains_ne_remapChain p (t := remapBase.1) (by decide)
  have hkey : (str "nat", remapChain p) ≠ (remapBase.1, remapBase.2) := fun h =>
    hne (Prod.mk.inj h).2.symm
  unfold buildRules
  rw [atAll_append, atAll_append]
  have h₁ : atAll [.registerOverride (str "nat") (remapChain p)] remapBase.1 remapBase.2 v = v :=
    foldl_at_of_ne (fun call hc => by rw [List.mem_singleton.mp hc]; exact hkey) v
  rw [h₁, show ∀ calls : List Call, (∀ call ∈ calls, call.key = (str "nat", remapChain p)) →
      atAll calls remapBase.1 remapBase.2 v = v from fun calls hc =>
        foldl_at_of_ne (fun call hm => hc call hm ▸ hkey) v]
  · simp [atAll, Call.at, remapBase]
  · intro call hcall
    obtain ⟨a, -, hcall⟩ := List.mem_flatMap.mp hcall
    simp only [List.mem_cons, List.not_mem_nil, or_false] at hcall
    rcases hcall with rfl | rfl <;> rfl

/-- Calls that leave a chain alone, or fill it with rules of their own whatever it was. -/
def Fills (calls : List Call) (t c : Bytes) : Prop :=
  (∀ v, atAll calls t c v = v) ∨ ∃ rules, ∀ v, atAll calls t c v = some (.override rules)

theorem exists_atAll_override {calls : List Call}
    (h : ∀ call ∈ calls, call.key ≠ (t, c) ∨ IsFill t c call) (rules : List Iptables.Rule) :
    ∃ rules', atAll calls t c (some (.override rules)) = some (.override rules') := by
  induction calls generalizing rules with
  | nil => exact ⟨rules, rfl⟩
  | cons call calls ih =>
    have ih := ih fun x hx => h x (List.mem_cons_of_mem _ hx)
    rcases h call (List.mem_cons_self ..) with hk | rfl | ⟨r, rfl⟩
    · rw [atAll, List.foldl_cons, Call.at_of_ne hk]
      exact ih rules
    · rw [atAll, List.foldl_cons, Call.at, if_pos ⟨rfl, rfl⟩]
      exact ih []
    · rw [atAll, List.foldl_cons, Call.at, if_pos ⟨rfl, rfl⟩]
      exact ih (rules ++ [r])

/-- Calls that register a chain and only fill it leave the same rules in it whatever it was. -/
theorem exists_atAll_of_register {calls : List Call}
    (h : ∀ call ∈ calls, call.key ≠ (t, c) ∨ IsFill t c call)
    (hreg : .registerOverride t c ∈ calls) :
    ∃ rules, ∀ v, atAll calls t c v = some (.override rules) := by
  induction calls with
  | nil => exact absurd hreg List.not_mem_nil
  | cons call calls ih =>
    have h' : ∀ x ∈ calls, x.key ≠ (t, c) ∨ IsFill t c x := fun x hx =>
      h x (List.mem_cons_of_mem _ hx)
    by_cases hrest : .registerOverride t c ∈ calls
    · obtain ⟨rules, hrules⟩ := ih h' hrest
      exact ⟨rules, fun v => hrules (call.at t c v)⟩
    · obtain rfl := (List.mem_cons.mp hreg).resolve_right hrest
      obtain ⟨rules, hrules⟩ := exists_atAll_override h' []
      refine ⟨rules, fun v => ?_⟩
      rw [atAll, List.foldl_cons, Call.at, if_pos ⟨rfl, rfl⟩]
      exact hrules

theorem exists_atAll_link (l : Link) (f : Family) (ht : t ∈ linkTables) :
    ∃ rules, ∀ v, atAll (buildIptablesRules p l f) t (chainName p l.id) v =
      some (.override rules) := by
  refine exists_atAll_of_register (fun call hcall => ?_) ?_
  · rcases mem_buildIptablesRules hcall with ⟨t', -, hfill⟩ | hbase
    · by_cases htt : t' = t
      · exact .inr (htt ▸ hfill)
      · rw [key_of_isFill hfill]
        exact .inl fun hk => htt (Prod.mk.inj hk).1
    · refine .inl fun hk => ?_
      rw [hk] at hbase
      exact baseChains_ne_chainName p
        ((by decide : ∀ b ∈ linkBases, b ∈ Engine.baseChains) _ hbase) l.id rfl
  · simp only [linkTables, List.mem_cons, List.not_mem_nil, or_false] at ht
    rcases ht with rfl | rfl | rfl <;> simp [buildIptablesRules]

theorem atAll_link_other (l : Link) (f : Family) (hb : (t, c) ∉ linkBases)
    (hc : t ∈ linkTables → c ≠ chainName p l.id) (v : Option Chain) :
    atAll (buildIptablesRules p l f) t c v = v := by
  refine foldl_at_of_ne (fun call hcall hk => ?_) v
  rcases mem_buildIptablesRules hcall with ⟨t', ht', hfill⟩ | hbase
  · obtain ⟨rfl, rfl⟩ := Prod.mk.inj ((key_of_isFill hfill).symm.trans hk)
    exact hc ht' rfl
  · exact hb (hk ▸ hbase)

theorem exists_atAll_remap (r : PortRemap) (f : Family) :
    ∃ rules, ∀ v, atAll (buildRules p r f) (str "nat") (remapChain p) v =
      some (.override rules) := by
  refine exists_atAll_of_register (fun call hcall => ?_) (by simp [buildRules])
  rcases mem_buildRules hcall with hfill | hbase
  · exact .inr hfill
  · refine .inl fun hk => ?_
    rw [hk] at hbase
    exact baseChains_ne_remapChain p (t := str "nat") (hbase ▸ by decide) rfl

theorem atAll_remap_other (r : PortRemap) (f : Family) (hb : (t, c) ≠ remapBase)
    (hc : (t, c) ≠ (str "nat", remapChain p)) (v : Option Chain) :
    atAll (buildRules p r f) t c v = v := by
  refine foldl_at_of_ne (fun call hcall hk => ?_) v
  rcases mem_buildRules hcall with hfill | hbase
  · exact hc (hk.symm.trans (key_of_isFill hfill))
  · exact hb (hk.symm.trans hbase)

theorem Fills.append {calls calls' : List Call} (h : Fills calls t c) (h' : Fills calls' t c) :
    Fills (calls ++ calls') t c := by
  rcases h' with h' | ⟨rules, h'⟩
  · rcases h with h | ⟨rules, h⟩
    · exact .inl fun v => by rw [atAll_append, h', h]
    · exact .inr ⟨rules, fun v => by rw [atAll_append, h', h]⟩
  · exact .inr ⟨rules, fun v => by rw [atAll_append, h']⟩

theorem rules_foldl_append (rs : List Iptables.Rule) (es : List PatchEntry) :
    (rs.foldl (fun es r => addRule es ⟨.append, 0, r⟩) es).map PatchEntry.rule =
      (es.map PatchEntry.rule).filter (fun r => r ∉ rs) ++ rs.dedup := by
  induction rs generalizing es with
  | nil => simp
  | cons r rs ih =>
    rw [List.foldl_cons, ih]
    have hrules : (addRule es ⟨.append, 0, r⟩).map PatchEntry.rule =
        (es.map PatchEntry.rule).filter (fun x => x ≠ r) ++ [r] := by
      simp [addRule, List.filter_map, Function.comp_def]
    rw [hrules, List.filter_append, List.filter_filter]
    have hnot : (es.map PatchEntry.rule).filter (fun x => decide (x ∉ rs) && decide (x ≠ r)) =
        (es.map PatchEntry.rule).filter fun x => x ∉ r :: rs := by
      apply List.filter_congr
      intro x _
      by_cases hx : x = r <;> simp [hx]
    rw [hnot, List.append_assoc]
    by_cases hr : r ∈ rs
    · rw [List.dedup_cons_of_mem hr, List.filter_cons_of_neg (by simpa using hr)]
      rfl
    · rw [List.dedup_cons_of_notMem hr, List.filter_cons_of_pos (by simpa using hr)]
      rfl

theorem option_foldl_append {rs : List Iptables.Rule} {es : List PatchEntry}
    (h : ∀ e ∈ es, e.option ≠ .delete) :
    ∀ e ∈ rs.foldl (fun es r => addRule es ⟨.append, 0, r⟩) es, e.option ≠ .delete := by
  induction rs generalizing es with
  | nil => exact h
  | cons r rs ih =>
    refine ih fun e he => ?_
    rcases mem_addRule he with ⟨he, -⟩ | rfl
    · exact h e he
    · simp

/-- The calls of a rebuild on the engine of a family. -/
def State.calls {σ : Type} (s : State σ) (p : Prefixes) (f : Family) : List Call :=
  (s.prepared p).flatMap fun calls => calls f

theorem calls_eq {σ : Type} (s : State σ) (p : Prefixes) (f : Family) :
    s.calls p f = (s.remap.toList.flatMap fun r => if r.enabled then buildRules p r f else []) ++
      (s.links .group ++ s.links .subscription).flatMap fun l =>
        if l.enabled then buildIptablesRules p l f else [] := by
  rw [State.calls, State.prepared, List.flatMap_append, List.flatMap_map, List.flatMap_map]

theorem atAll_links_base (ls : List Link) (f : Family) (h : (t, c) ∈ linkBases)
    (es : List PatchEntry) :
    atAll (ls.flatMap fun l => if l.enabled then buildIptablesRules p l f else []) t c
        (some (.patch es)) =
      some (.patch (((ls.filter Link.enabled).map fun l => jump (chainName p l.id)).foldl
        (fun es r => addRule es ⟨.append, 0, r⟩) es)) := by
  induction ls generalizing es with
  | nil => rfl
  | cons l ls ih =>
    rw [List.flatMap_cons, atAll_append]
    by_cases hon : l.enabled = true
    · rw [if_pos hon, atAll_link_base l f h, List.filter_cons_of_pos hon]
      exact ih (addRule es ⟨.append, 0, jump (chainName p l.id)⟩)
    · rw [if_neg hon, List.filter_cons_of_neg hon]
      exact ih es

/-- Where no link has its chain the links leave it alone. -/
theorem atAll_links_other (ls : List Link) (f : Family) (hb : (t, c) ∉ linkBases)
    (hc : t ∈ linkTables → ∀ l ∈ ls, l.enabled = true → c ≠ chainName p l.id) (v : Option Chain) :
    atAll (ls.flatMap fun l => if l.enabled then buildIptablesRules p l f else []) t c v = v := by
  induction ls generalizing v with
  | nil => rfl
  | cons l ls ih =>
    rw [List.flatMap_cons, atAll_append, ih fun ht x hx => hc ht x (List.mem_cons_of_mem _ hx)]
    split
    · next hon => exact atAll_link_other l f hb (fun ht => hc ht l (List.mem_cons_self ..) hon) v
    · rfl

/-- A base chain gets the wanted jumps, in order. -/
theorem atAll_calls_base {σ : Type} (s : State σ) (f : Family)
    (h : (t, c) ∈ Engine.baseChains) :
    ∃ es, atAll (s.calls p f) t c (some (.patch [])) = some (.patch es) ∧
      es.map PatchEntry.rule = s.wantedJumps p t c ∧ ∀ e ∈ es, e.option ≠ .delete := by
  rw [calls_eq]
  by_cases hl : (t, c) ∈ linkBases
  · have hremap : atAll (s.remap.toList.flatMap fun r => if r.enabled then buildRules p r f else [])
        t c (some (.patch [])) = some (.patch []) := by
      cases s.remap with
      | none => rfl
      | some r =>
        simp only [Option.toList_some, List.flatMap_singleton]
        split
        · refine atAll_remap_other r f (not_remapBase_of_mem hl) (fun heq => ?_) _
          exact baseChains_ne_remapChain p h (Prod.mk.inj heq).2
        · rfl
    refine ⟨_, by rw [atAll_append, hremap, atAll_links_base _ f hl], ?_, ?_⟩
    · rw [rules_foldl_append, State.wantedJumps, if_pos hl]
      rfl
    · exact option_foldl_append (by simp)
  · have hr : (t, c) = remapBase :=
      (by decide : ∀ b ∈ Engine.baseChains, b ∉ linkBases → b = remapBase) _ h hl
    have hlinks : ∀ v, atAll ((s.links .group ++ s.links .subscription).flatMap fun l =>
        if l.enabled then buildIptablesRules p l f else []) t c v = v := fun v =>
      atAll_links_other _ f hl (fun _ l _ _ => baseChains_ne_chainName p h l.id) v
    obtain ⟨rfl, rfl⟩ := Prod.mk.inj hr
    rw [State.wantedJumps, if_neg hl, if_pos hr]
    simp only [atAll_append, hlinks]
    cases s.remap with
    | none => exact ⟨[], rfl, rfl, by simp⟩
    | some r =>
      simp only [Option.toList_some, List.flatMap_singleton]
      by_cases hon : r.enabled = true
      · rw [if_pos hon, List.filter_cons_of_pos hon]
        exact ⟨_, atAll_remap_base r f _, rfl, by simp [addRule]⟩
      · rw [if_neg hon, List.filter_cons_of_neg hon]
        exact ⟨[], rfl, rfl, by simp⟩

theorem Fills.ne_none {calls : List Call} (h : Fills calls t c) {v : Option Chain} (hv : v ≠ none) :
    atAll calls t c v ≠ none := by
  rcases h with h | ⟨rules, h⟩
  · rwa [h]
  · rw [h]
    exact Option.some_ne_none _

theorem fills_flatMap {α : Type} {xs : List α} {g : α → List Call}
    (hg : ∀ x ∈ xs, Fills (g x) t c) : Fills (xs.flatMap g) t c := by
  induction xs with
  | nil => exact .inl fun _ => rfl
  | cons x xs ih =>
    rw [List.flatMap_cons]
    exact (hg x (List.mem_cons_self ..)).append (ih fun y hy => hg y (List.mem_cons_of_mem _ hy))

theorem atAll_flatMap_ne_none {α : Type} {xs : List α} {g : α → List Call}
    (hg : ∀ x ∈ xs, Fills (g x) t c) {x : α} (hx : x ∈ xs)
    (hfill : ∃ rules, ∀ v, atAll (g x) t c v = some (.override rules)) (v : Option Chain) :
    atAll (xs.flatMap g) t c v ≠ none := by
  obtain ⟨rules, hfill⟩ := hfill
  obtain ⟨pre, post, rfl⟩ := List.append_of_mem hx
  have hpost : Fills (post.flatMap g) t c := fills_flatMap fun y hy =>
    hg y (List.mem_append_right _ (List.mem_cons_of_mem _ hy))
  rw [List.flatMap_append, List.flatMap_cons, atAll_append, atAll_append, hfill]
  exact hpost.ne_none (Option.some_ne_none _)

section Own

variable {σ : Type} {s : State σ} {f : Family}

theorem fills_remap (h : (t, c) ∉ Engine.baseChains) (r : PortRemap) :
    Fills (if r.enabled then buildRules p r f else []) t c := by
  split
  · by_cases hc : (t, c) = (str "nat", remapChain p)
    · obtain ⟨rfl, rfl⟩ := Prod.mk.inj hc
      exact .inr (exists_atAll_remap r f)
    · exact .inl (atAll_remap_other r f (fun hr => h (hr ▸ by decide)) hc)
  · exact .inl fun _ => rfl

theorem fills_link (h : (t, c) ∉ Engine.baseChains) (l : Link) :
    Fills (if l.enabled then buildIptablesRules p l f else []) t c := by
  have hl : (t, c) ∉ linkBases := fun hl =>
    h ((by decide : ∀ b ∈ linkBases, b ∈ Engine.baseChains) _ hl)
  split
  · by_cases hc : t ∈ linkTables ∧ c = chainName p l.id
    · obtain ⟨ht, rfl⟩ := hc
      exact .inr (exists_atAll_link l f ht)
    · exact .inl (atAll_link_other l f hl fun ht hcc => hc ⟨ht, hcc⟩)
  · exact .inl fun _ => rfl

/-- The chains that are not base chains are filled or left alone. -/
theorem fills_calls (h : (t, c) ∉ Engine.baseChains) : Fills (s.calls p f) t c := by
  rw [calls_eq]
  exact (fills_flatMap fun r _ => fills_remap h r).append (fills_flatMap fun l _ => fills_link h l)

theorem atAll_calls_ne_none (h : (t, c) ∉ Engine.baseChains) {rules : List Iptables.Rule}
    (hch : ChainStaged p s.Enabled s.Remapped t c (.override rules)) (v : Option Chain) :
    atAll (s.calls p f) t c v ≠ none := by
  rw [calls_eq, atAll_append]
  rcases hch with ⟨ht, id, ⟨k, l, hl, hon, rfl⟩, rfl⟩ | ⟨⟨r, hr, hon⟩, rfl, rfl⟩
  · refine atAll_flatMap_ne_none (fun l _ => fills_link h l) (x := l) ?_ ?_ _
    · cases k with
      | group => exact List.mem_append_left _ hl
      | subscription => exact List.mem_append_right _ hl
    · rw [if_pos hon]
      exact exists_atAll_link l f ht
  · refine Fills.ne_none (fills_flatMap fun l _ => fills_link h l) ?_
    refine atAll_flatMap_ne_none (fun r _ => fills_remap h r) (x := r) ?_ ?_ _
    · exact Option.mem_toList.mpr hr
    · rw [if_pos hon]
      exact exists_atAll_remap r f

theorem atAll_links_last (ls : List Link) (hb : (t, c) ∉ linkBases) (ht : t ∈ linkTables)
    (v : Option Chain) :
    atAll (ls.flatMap fun l => if l.enabled then buildIptablesRules p l f else []) t c v =
      match (ls.filter Link.enabled).reverse.find? fun l => c = chainName p l.id with
      | none => v
      | some l => atAll (buildIptablesRules p l f) t c none := by
  induction ls using List.reverseRecOn with
  | nil => rfl
  | append_singleton ls l ih =>
    rw [List.flatMap_append, List.flatMap_singleton, atAll_append, ih, List.filter_append]
    by_cases hon : l.enabled = true
    · rw [if_pos hon, List.filter_cons_of_pos hon, List.filter_nil, List.reverse_append,
        List.reverse_singleton, List.singleton_append]
      by_cases hc : c = chainName p l.id
      · have hfind : (l :: (ls.filter Link.enabled).reverse).find?
            (fun l => c = chainName p l.id) = some l := List.find?_cons_of_pos (by simpa using hc)
        obtain ⟨rules, hrules⟩ := exists_atAll_link (p := p) l f ht
        rw [← hc] at hrules
        rw [hfind, hrules]
        exact (hrules none).symm
      · have hfind : (l :: (ls.filter Link.enabled).reverse).find?
            (fun l => c = chainName p l.id) = (ls.filter Link.enabled).reverse.find?
              fun l => c = chainName p l.id := List.find?_cons_of_neg (by simpa using hc)
        rw [hfind]
        exact atAll_link_other l f hb (fun _ => hc) _
    · rw [if_neg hon, List.filter_cons_of_neg hon, List.filter_nil, List.append_nil]
      rfl

theorem calls_remap (r : Option PortRemap) (f : Family) :
    (r.toList.flatMap fun r => if r.enabled then buildRules p r f else []) =
      (r.filter PortRemap.enabled).toList.flatMap fun r => buildRules p r f := by
  cases r with
  | none => rfl
  | some r =>
    by_cases hon : r.enabled = true
    · simp [Option.filter, hon]
    · simp [Option.filter, hon]

theorem id_of_chainName {id id' : Id} (h : chainName p id = chainName p id') : id = id' := by
  rw [chainName_eq, chainName_eq] at h
  have hparse := congrArg Id.parse (List.append_cancel_left h)
  rw [Id.parse_format, Id.parse_format] at hparse
  exact Option.some.inj hparse

theorem find?_chainName (ls : List Link) (id : Id) :
    (ls.find? fun l => chainName p id = chainName p l.id) = ls.find? fun l => l.id = id := by
  congr 1
  funext l
  exact decide_eq_decide.mpr ⟨fun h => (id_of_chainName h).symm, fun h => by rw [h]⟩

/-- The rules of a link in its chain of the table `mangle`. -/
def mangleRules (p : Prefixes) (l : Link) (f : Family) : List Iptables.Rule :=
  [[str "-m", str "conntrack", str "--ctdir", str "REPLY", str "-j", str "RETURN"],
    [str "-m", str "set", str "--match-set", ipsetName p l.id f, str "dst",
      str "-j", str "MARK", str "--set-mark", Libc.digits l.mark.toNat],
    [str "-m", str "set", str "--match-set", ipsetName p l.id f, str "dst",
      str "-j", str "CONNMARK", str "--save-mark"]]

theorem mark_of_mangleRules {l l' : Link} (h : mangleRules p l f = mangleRules p l' f) :
    l.mark = l'.mark := by
  simp only [mangleRules, List.cons.injEq, and_true, true_and] at h
  have hdigits := congrArg Libc.decimal h.1.2
  rw [Libc.decimal_digits, Libc.decimal_digits] at hdigits
  exact UInt32.toNat_inj.mp hdigits

theorem atAll_link_mangle (l : Link) (v : Option Chain) :
    atAll (buildIptablesRules p l f) (str "mangle") (chainName p l.id) v =
      some (.override (mangleRules p l f)) := by
  have hne : str "PREROUTING" ≠ chainName p l.id :=
    baseChains_ne_chainName p (t := str "mangle") (by decide) l.id
  have hfilter : str "mangle" ≠ str "filter" := by decide
  have hnat : str "mangle" ≠ str "nat" := by decide
  unfold buildIptablesRules
  rw [atAll_append, atAll_append]
  have hskip : ∀ (b : Prop) [Decidable b] (r : Iptables.Rule) (v : Option Chain),
      atAll (if b then [] else [.append (str "filter") (chainName p l.id) r]) (str "mangle")
        (chainName p l.id) v = v := by
    intro b _ r v
    split
    · rfl
    · simp only [atAll, List.foldl_cons, List.foldl_nil, Call.at, hfilter, false_and, if_false]
  rw [hskip]
  simp only [atAll, List.foldl_cons, List.foldl_nil, Call.at, hfilter, hnat, hne.symm, false_and,
    and_false, if_false, and_self, if_true, Option.map_some, Chain.append]
  rfl

/-- The chain of an id in the table `mangle`. -/
theorem atAll_calls_mangle (id : Id) :
    (match atAll (s.calls p f) (str "mangle") (chainName p id) none with
      | some (.override rules) => some rules
      | _ => none) =
      (s.enabledLinks.reverse.find? fun l => l.id = id).map fun l => mangleRules p l f := by
  have hb : (str "mangle", chainName p id) ∉ linkBases := fun hb =>
    baseChains_ne_chainName p ((by decide : ∀ b ∈ linkBases, b ∈ Engine.baseChains) _ hb) id rfl
  have hremap : atAll (s.remap.toList.flatMap fun r => if r.enabled then buildRules p r f else [])
      (str "mangle") (chainName p id) none = none := by
    cases s.remap with
    | none => rfl
    | some r =>
      simp only [Option.toList_some, List.flatMap_singleton]
      split
      · refine atAll_remap_other r f (fun heq => ?_) (fun heq => ?_) none
        · exact absurd (Prod.mk.inj heq).1 (by decide)
        · exact absurd (Prod.mk.inj heq).1 (by decide)
      · rfl
  rw [calls_eq, atAll_append, hremap, atAll_links_last _ hb (by decide), find?_chainName]
  show _ = ((List.filter Link.enabled (s.links .group ++ s.links .subscription)).reverse.find?
    fun l => l.id = id).map _
  cases hl : (List.filter Link.enabled (s.links .group ++ s.links .subscription)).reverse.find?
    fun l => l.id = id with
  | none => rfl
  | some l =>
    have hid : l.id = id := by simpa using List.find?_some hl
    subst hid
    dsimp only
    rw [atAll_link_mangle]
    rfl

/-- The calls for the chains with the prefix depend on the configuration and the marks. -/
theorem atAll_calls_congr {s₁ s₂ : State σ}
    (hlinks : s₁.enabledLinks.map Link.settings = s₂.enabledLinks.map Link.settings)
    (hremap : s₁.remap.filter PortRemap.enabled = s₂.remap.filter PortRemap.enabled)
    (hmarks : ∀ id, s₁.markOf id = s₂.markOf id) (hb : (t, c) ∉ Engine.baseChains) :
    atAll (s₁.calls p f) t c none = atAll (s₂.calls p f) t c none := by
  have hl : (t, c) ∉ linkBases := fun hl =>
    hb ((by decide : ∀ b ∈ linkBases, b ∈ Engine.baseChains) _ hl)
  rw [calls_eq, calls_eq, atAll_append, atAll_append, calls_remap, calls_remap, hremap]
  generalize atAll ((s₂.remap.filter PortRemap.enabled).toList.flatMap fun r => buildRules p r f)
    t c none = v
  by_cases ht : t ∈ linkTables
  · rw [atAll_links_last _ hl ht, atAll_links_last _ hl ht]
    have hfind : ∀ s : State σ, ((s.enabledLinks.map Link.settings).reverse.find?
        fun x => c = chainName p x.1) =
        (s.enabledLinks.reverse.find? fun l => c = chainName p l.id).map Link.settings := by
      intro s
      rw [← List.map_reverse, List.find?_map]
      rfl
    have hsame := hfind s₂
    rw [← hlinks, hfind s₁] at hsame
    unfold State.enabledLinks at hsame
    cases hf₁ : (List.filter Link.enabled (s₁.links .group ++ s₁.links .subscription)).reverse.find?
        fun l => c = chainName p l.id <;>
      cases hf₂ : (List.filter Link.enabled
          (s₂.links .group ++ s₂.links .subscription)).reverse.find?
          fun l => c = chainName p l.id <;>
      rw [hf₁, hf₂] at hsame
    · cases hsame
    · cases hsame
    · next l₁ l₂ =>
      obtain ⟨hid, hiface⟩ := Prod.mk.inj (Option.some.inj hsame)
      have hc : c = chainName p l₁.id := by simpa using List.find?_some hf₁
      have hmark := hmarks l₁.id
      subst hc
      rw [find?_chainName] at hf₁ hf₂
      unfold State.markOf State.enabledLinks at hmark
      rw [hf₁, hf₂] at hmark
      have hbuild : buildIptablesRules p l₁ f = buildIptablesRules p l₂ f := by
        have hid : l₁.id = l₂.id := hid
        have hiface : l₁.iface = l₂.iface := hiface
        unfold buildIptablesRules
        rw [hid, hiface, Option.some.inj hmark]
      dsimp only
      rw [hbuild]
  · rw [atAll_links_other _ f hl (fun h => absurd h ht), atAll_links_other _ f hl
      fun h => absurd h ht]

end Own

end Prepared

/-! ## One engine -/

/-- What a successful rebuild does to an engine: the cleaner with its commit, then the base chains
and the calls staged anew with theirs. -/
structure Rebuilt (p : Prefixes) (calls : List Call) (e e' : Engine Tables) : Prop where
  run : ∃ snap ts, snap.WF ∧ ts.WF ∧ (∀ t c, chainOf snap t c = chainOf e.kernel t c) ∧
    (∀ t c, runOps ((Engine.cleanTables p.chain e.ipt snap).1.script t c (chainOf e.kernel t c))
      (chainOf e.kernel t c) = .ok (chainOf ts t c)) ∧
    e'.ipt = calls.foldl Call.step
      (Engine.registerBaseChains ⟨(Engine.cleanTables p.chain e.ipt snap).1, ts⟩).ipt ∧
    ∀ t c, runOps (e'.ipt.script t c (chainOf ts t c)) (chainOf ts t c) =
      .ok (chainOf e'.kernel t c)

section One

variable {p : Prefixes} {A : Id → Prop} {B : Prop} {t c : Bytes}

theorem findChain_registerBaseChains (e : Engine Tables) (t c : Bytes) :
    findChain e.registerBaseChains.ipt t c =
      if (t, c) ∈ Engine.baseChains then some (.patch []) else findChain e.ipt t c := by
  have hcalls : e.registerBaseChains.ipt =
      (Engine.baseChains.map fun b => Call.registerPatch b.1 b.2).foldl Call.step e.ipt := rfl
  rw [hcalls, findChain_foldl_step]
  generalize findChain e.ipt t c = v
  simp only [Engine.baseChains, List.map_cons, List.map_nil, List.foldl_cons, List.foldl_nil,
    Call.at, List.mem_cons, List.not_mem_nil, or_false, Prod.mk.injEq]
  by_cases h₁ : t = str "filter" ∧ c = str "FORWARD"
  · simp [h₁]
  · by_cases h₂ : t = str "mangle" ∧ c = str "PREROUTING"
    · simp [h₂]
    · by_cases h₃ : t = str "nat" ∧ c = str "PREROUTING"
      · simp [h₃]
      · simp only [h₁, h₂, h₃, if_false, false_or]

theorem chainOf_of_none {ipt : Ipt} {v v' : Option (List Iptables.Rule)}
    (hf : findChain ipt t c = none) (hrun : runOps (ipt.script t c v) v = .ok v') : v' = v := by
  rw [Ipt.script, hf] at hrun
  exact (Except.ok.inj hrun).symm

theorem mem_leftover {e : Engine Tables} (h : EngineOk p A B e) {x : Iptables.Rule}
    (hx : x ∈ leftover p e t c) : ∃ en : PatchEntry, EntryStaged p A B t c en ∧
      en.option ≠ .delete ∧ en.rule = x := by
  unfold leftover at hx
  split at hx
  · next es hf =>
    split at hx
    · exact absurd hx List.not_mem_nil
    · obtain ⟨en, hen, ho, -, hr⟩ := mem_missingRules.mp hx
      exact ⟨en, (h.staged t c _ hf).2 en hen, ho, hr⟩
  · exact absurd hx List.not_mem_nil

theorem nodup_leftover {e : Engine Tables} (h : EngineOk p A B e) : (leftover p e t c).Nodup := by
  unfold leftover
  split
  · next es hf =>
    split
    · exact List.nodup_nil
    · exact nodup_missingRules (h.ipt.findChain hf).2.2.1 _
  · exact List.nodup_nil

theorem filter_not_mem_jumps {l k : List Iptables.Rule} (hk : ∀ x ∈ k, Engine.isJump p.chain x = true) :
    k.filter (fun r => r ∉ l) = k.filter fun r => r ∉ l.filter (Engine.isJump p.chain) := by
  apply List.filter_congr
  intro x hx
  simp [List.mem_filter, hk x hx]

theorem mem_baseChains_of_staged {en : PatchEntry} (h : EntryStaged p A B t c en)
    (ho : en.option ≠ .delete) : (t, c) ∈ Engine.baseChains := by
  rcases h with h | ⟨-, hb, -⟩ | ⟨-, hb, -⟩
  · exact absurd h ho
  · exact (by decide : ∀ b ∈ linkBases, b ∈ Engine.baseChains) _ hb
  · exact hb ▸ by decide

/-- A base chain whose entries append: the missing rules follow the jumps that are there. -/
theorem jumps_of_appends {es : List PatchEntry} (hc : (Chain.patch es).Clean)
    (hes : ∀ en ∈ es, EntryStaged p A B t c en) (hopt : ∀ en ∈ es, en.option ≠ .delete)
    (hb : (t, c) ≠ remapBase) {v v' : Option (List Iptables.Rule)}
    (hv : ∀ r ∈ v.getD [], ∀ x ∈ r, IsToken x)
    (hnd : ((v.getD []).filter (Engine.isJump p.chain)).Nodup)
    (hrun : runOps ((Chain.patch es).script c v) v = .ok v') :
    (v'.getD []).filter (Engine.isJump p.chain) = (v.getD []).filter (Engine.isJump p.chain) ++
      (es.map PatchEntry.rule).filter fun r => r ∉ (v.getD []).filter (Engine.isJump p.chain) := by
  have hjump : ∀ x ∈ es.map PatchEntry.rule, Engine.isJump p.chain x = true := by
    intro x hx
    obtain ⟨en, hen, rfl⟩ := List.mem_map.mp hx
    exact (hes en hen).isJump (hopt en hen)
  have hdel : deletedRules es = [] := by
    rw [List.eq_nil_iff_forall_not_mem]
    intro r hr
    obtain ⟨en, hen, ho, -⟩ := mem_deletedRules.mp hr
    exact hopt en hen ho
  have hmiss : missingRules es (v.getD []) =
      (es.map PatchEntry.rule).filter fun r => r ∉ v.getD [] := by
    rw [missingRules, List.filter_map]
    congr 1
    apply List.filter_congr
    intro en hen
    simp [hopt en hen]
  have hone : ∀ en ∈ es, en.option = .append → (v.getD []).count en.rule ≤ 1 := by
    intro en hen _
    rw [← List.count_filter (hjump en.rule (List.mem_map_of_mem hen))]
    exact List.nodup_iff_count_le_one.mp hnd en.rule
  have hkeep : (v.getD []).filter (fun r => r ∉ ([] : List Iptables.Rule)) = v.getD [] :=
    List.filter_eq_self.mpr (by simp)
  rw [getD_of_patch hc hv (appendsOrDeletes_of_staged hes hb) hone hrun, hdel, hmiss, hkeep,
    List.filter_append, filter_not_mem_jumps hjump]
  congr 1
  rw [List.filter_eq_self]
  exact fun x hx => hjump x (List.mem_filter.mp hx).1

/-- The base chain of the port remap: its jump is there once if it is wanted. -/
theorem jumps_of_inserts {es : List PatchEntry} (hc : (Chain.patch es).Clean)
    (hes : ∀ en ∈ es, EntryStaged p A B t c en) (hopt : ∀ en ∈ es, en.option ≠ .delete)
    (hb : (t, c) = remapBase) {v v' : Option (List Iptables.Rule)}
    (hv : ∀ r ∈ v.getD [], ∀ x ∈ r, IsToken x)
    (hnd : ((v.getD []).filter (Engine.isJump p.chain)).Nodup)
    (hall : ∀ x ∈ (v.getD []).filter (Engine.isJump p.chain), x = jump (remapChain p))
    (hrun : runOps ((Chain.patch es).script c v) v = .ok v') :
    (v'.getD []).filter (Engine.isJump p.chain) = (v.getD []).filter (Engine.isJump p.chain) ++
      (es.map PatchEntry.rule).filter fun r => r ∉ (v.getD []).filter (Engine.isJump p.chain) := by
  have hrule : ∀ x ∈ es.map PatchEntry.rule, x = jump (remapChain p) := by
    intro x hx
    obtain ⟨en, hen, rfl⟩ := List.mem_map.mp hx
    exact (rule_of_staged (hes en hen) hb (hopt en hen)).2
  have hjump := isJump_jump p (isOwn_remapChain p)
  obtain ⟨w, hw, hreach⟩ := script_reaches hc c hv
  rw [hrun] at hw
  cases hw
  refine eq_of_forall_eq (a := jump (remapChain p)) ?_ ?_ ?_
  · intro x hx
    by_cases hmem : x ∈ es.map PatchEntry.rule
    · exact hrule x hmem
    · have hx' : x ∈ (v'.getD []).filter fun r => r ∉ es.map PatchEntry.rule :=
        List.mem_filter.mpr ⟨(List.mem_filter.mp hx).1, decide_eq_true hmem⟩
      rw [hreach.2.1] at hx'
      exact hall x (List.mem_filter.mpr ⟨(List.mem_filter.mp hx').1, (List.mem_filter.mp hx).2⟩)
  · intro x hx
    rcases List.mem_append.mp hx with hx | hx
    · exact hall x hx
    · exact hrule x (List.mem_filter.mp hx).1
  · rw [List.count_append, List.count_filter hjump]
    cases es with
    | nil =>
      have hsame : v'.getD [] = v.getD [] := by simpa using hreach.2.1
      simp [hsame, List.count_filter hjump]
    | cons en es =>
      have hen : en.rule = jump (remapChain p) := hrule _ (List.mem_cons_self ..)
      have hcount := hreach.2.2 en (List.mem_cons_self ..)
      rw [PatchEntry.copies, if_neg (hopt en (List.mem_cons_self ..)), hen] at hcount
      rw [hcount]
      have hmem : jump (remapChain p) ∈ (en :: es).map PatchEntry.rule :=
        hen ▸ List.mem_cons_self ..
      by_cases hin : jump (remapChain p) ∈ (v.getD []).filter (Engine.isJump p.chain)
      · rw [List.count_eq_one_of_mem hnd hin, List.count_eq_zero.mpr]
        intro hx
        exact of_decide_eq_true (List.mem_filter.mp hx).2 hin
      · have hkept : ((en :: es).map PatchEntry.rule).filter
            (fun r => r ∉ (v.getD []).filter (Engine.isJump p.chain)) =
            (en :: es).map PatchEntry.rule := by
          rw [List.filter_eq_self]
          intro x hx
          rw [hrule x hx]
          exact decide_eq_true hin
        rw [List.count_eq_zero.mpr hin, hkept, List.count_eq_one_of_mem hc.1 hmem]

variable {calls : List Call} {e e' : Engine Tables}

/-- **The jumps after a rebuild**: those the cleaner has put back, then the missing ones of the
wanted. -/
theorem Rebuilt.jumpsIn_eq {σ : Type} {s : State σ} {f : Family}
    (h : Rebuilt p (s.calls p f) e e') (he : EngineOk p A B e) (he' : EngineOk p A B e')
    (hp : Patched p t c) :
    jumpsIn p e'.kernel t c =
      leftover p e t c ++ (s.wantedJumps p t c).filter fun r => r ∉ leftover p e t c := by
  obtain ⟨snap, ts, hsnap, hts, hview, hrun, hipt, hrun'⟩ := h.run
  have hleft := jumpsIn_clean he hsnap hview hrun hp
  have hrun' := hrun' t c
  have htok := hts.chainOf (t := t) (c := c)
  have hstaged := he'.staged t c
  have hreg : findChain e'.ipt t c = atAll (s.calls p f) t c
      (if (t, c) ∈ Engine.baseChains then some (.patch [])
        else findChain (Engine.cleanTables p.chain e.ipt snap).1 t c) := by
    rw [hipt, findChain_foldl_step, findChain_registerBaseChains]
    rfl
  unfold jumpsIn at hleft ⊢
  by_cases hb : (t, c) ∈ Engine.baseChains
  · obtain ⟨es, hes, hrules, hopt⟩ := atAll_calls_base (p := p) s f hb
    rw [if_pos hb, hes] at hreg
    have hclean := (he'.ipt.findChain hreg).2.2
    have hentries := (hstaged _ hreg).2
    rw [Ipt.script, hreg] at hrun'
    rw [← hleft, ← hrules]
    have hnd : (((chainOf ts t c).getD []).filter (Engine.isJump p.chain)).Nodup :=
      hleft ▸ nodup_leftover he
    by_cases hr : (t, c) = remapBase
    · refine jumps_of_inserts hclean hentries hopt hr htok hnd (fun x hx => ?_) hrun'
      obtain ⟨en, hen, ho, rfl⟩ := mem_leftover he (hleft ▸ hx)
      exact (rule_of_staged hen hr ho).2
    · exact jumps_of_appends hclean hentries hopt hr htok hnd hrun'
  · -- nothing is wanted here, and nothing is put back
    have hnone : ∀ x : Iptables.Rule, x ∉ leftover p e t c := fun x hx => by
      obtain ⟨en, hen, ho, -⟩ := mem_leftover he hx
      exact hb (mem_baseChains_of_staged hen ho)
    rw [List.eq_nil_iff_forall_not_mem.mpr hnone] at hleft ⊢
    have hwanted : s.wantedJumps p t c = [] := by
      rw [State.wantedJumps, if_neg, if_neg]
      · exact fun hr => hb (hr ▸ by decide)
      · exact fun hl => hb ((by decide : ∀ b ∈ linkBases, b ∈ Engine.baseChains) _ hl)
    rw [hwanted]
    show _ = []
    cases hf : findChain e'.ipt t c with
    | none => rw [chainOf_of_none hf hrun', hleft]
    | some ch =>
      have hch := hstaged _ hf
      cases ch with
      | override rules => exact absurd hch (not_override_of_patched hp)
      | delete =>
        rcases hp with hp | hp
        · exact absurd hp hb
        · rw [show Engine.isOwn p.chain c = true from hch] at hp
          cases hp
      | patch es =>
        have hdel : ∀ en ∈ es, en.option = .delete := fun en hen => by
          by_contra ho
          exact hb (mem_baseChains_of_staged (hch.2 en hen) ho)
        rw [Ipt.script, hf] at hrun'
        have horder := getD_of_patch (he'.ipt.findChain hf).2.2 htok
          (fun en hen => .inr (hdel en hen)) (fun en hen ho => by simp [hdel en hen] at ho) hrun'
        have hmiss : missingRules es ((chainOf ts t c).getD []) = [] := by
          rw [List.eq_nil_iff_forall_not_mem]
          intro x hx
          obtain ⟨en, hen, ho, -⟩ := mem_missingRules.mp hx
          exact ho (hdel en hen)
        rw [horder, hmiss, List.append_nil, List.filter_comm, hleft]
        rfl

/-- **The chains of the daemon after a rebuild** depend on the calls only. -/
theorem Rebuilt.chainOf_own {σ : Type} {s : State σ} {f : Family}
    (h : Rebuilt p (s.calls p f) e e')
    (he' : EngineOk p s.Enabled s.Remapped e') (ho : Engine.isOwn p.chain c = true)
    (hb : (t, c) ∉ Engine.baseChains) :
    chainOf e'.kernel t c =
      match atAll (s.calls p f) t c none with
      | some (.override rules) => some rules
      | _ => none := by
  obtain ⟨snap, ts, hsnap, hts, hview, hrun, hipt, hrun'⟩ := h.run
  have hreg : findChain e'.ipt t c = atAll (s.calls p f) t c
      (findChain (Engine.cleanTables p.chain e.ipt snap).1 t c) := by
    rw [hipt, findChain_foldl_step, findChain_registerBaseChains, if_neg hb]
    rfl
  have hreach := reached_of_script he'.ipt hts.chainOf (hrun' t c)
  unfold Ipt.Reached at hreach
  rcases fills_calls (p := p) (s := s) (f := f) hb with hleave | ⟨rules, hfill⟩
  · -- the registration is the one of the cleaner, and not one to fill the chain
    rw [hleave]
    show _ = none
    have hstaged := he'.staged t c
    rw [hleave] at hreg
    cases hf : findChain e'.ipt t c with
    | some ch =>
      rw [hf] at hreach
      have hch := hstaged _ hf
      cases ch with
      | delete => exact hreach
      | patch es =>
        rcases hch.1 with hb' | ho'
        · exact absurd hb' hb
        · rw [ho] at ho'
          cases ho'
      | override rules =>
        -- something enabled would have filled it
        exact absurd (hleave none) (atAll_calls_ne_none hb hch none)
    | none =>
      rw [hf] at hreach hreg
      rw [hreach]
      have hclean := Cleaner.findChain_cleanTables hsnap p.chain e.ipt t c
      rw [← hreg, hview] at hclean
      have hK : chainOf e.kernel t c = none := by
        cases hK : chainOf e.kernel t c with
        | none => rfl
        | some rules =>
          rw [hK, Option.elim_some, Cleaner.cleanedChain, if_pos ho] at hclean
          cases hclean
      have hf₁ : findChain (Engine.cleanTables p.chain e.ipt snap).1 t c = none := hreg.symm
      rw [chainOf_of_none hf₁ (hrun t c), hK]
  · rw [hfill] at hreg ⊢
    rw [hreg] at hreach
    exact hreach

end One

/-! ## A successful rebuild -/

section Success

variable {σ : Type} {s s' : State σ} {a : Family → Engine σ → Engine σ × Option Err}

theorem on_snd (f : Family) (a : Engine σ → Engine σ × Option Err) :
    (s.on f a).2 = (s.engines f).bind fun e => (a e).2 := by
  unfold State.on
  cases s.engines f <;> rfl

theorem both_ok (h : (s.both a).2 = none) {f : Family} {e : Engine σ}
    (he : s.engines f = some e) : (a f e).2 = none := by
  simp only [State.both, Option.orElse_eq_orElse, Option.orElse_eq_or, Option.or_eq_none_iff,
    on_snd, on_engines] at h
  cases f with
  | v4 => simpa [he] using h.1
  | v6 => simpa [he] using h.2

theorem inTurn_ok (h : s.inTurn a = (s', none)) (f : Family) :
    s'.engines f = (s.engines f).map (fun e => (a f e).1) ∧
      ∀ e, s.engines f = some e → (a f e).2 = none := by
  have h₄ := on_engines (s := s) .v4 (a .v4)
  have he₄ := on_snd (s := s) .v4 (a .v4)
  unfold State.inTurn at h
  split at h
  · cases h
  · next s₁ hs₁ =>
    rw [hs₁] at h₄ he₄
    have h₆ := on_engines (s := s₁) .v6 (a .v6)
    have he₆ := on_snd (s := s₁) .v6 (a .v6)
    rw [h] at h₆ he₆
    simp only at h₄ he₄ h₆ he₆
    have hv₆ : s₁.engines .v6 = s.engines .v6 := by simpa using h₄ .v6
    cases f with
    | v4 =>
      refine ⟨?_, fun e he => ?_⟩
      · rw [h₆, if_neg (by decide), h₄, if_pos rfl]
      · rw [he] at he₄
        exact he₄.symm
    | v6 =>
      refine ⟨?_, fun e he => ?_⟩
      · rw [h₆, if_pos rfl, hv₆]
      · rw [hv₆, he] at he₆
        exact he₆.symm

theorem stage_ok {calls : List Call} {e : Engine σ} (h : (e.stage calls).2 = none) :
    (e.stage calls).1 = { e with ipt := calls.foldl Call.step e.ipt } := by
  have hrun : untilErr call e.ipt calls = ((untilErr call e.ipt calls).1, none) :=
    Prod.ext rfl h
  have hstep : ∀ ipt c ipt', call ipt c = (ipt', none) → ipt' = c.step ipt := by
    intro ipt c ipt' hc
    rw [← call_fst, hc]
  rw [Engine.stage, untilErr_ok hstep hrun]

theorem prepare_ok {cs : List (Family → List Call)}
    (h : untilErr (fun s calls => s.both fun f => Engine.stage (calls f)) s cs = (s', none))
    (f : Family) :
    s'.engines f = (s.engines f).map fun e =>
      { e with ipt := (cs.flatMap fun calls => calls f).foldl Call.step e.ipt } := by
  induction cs generalizing s with
  | nil =>
    cases h
    simp
  | cons calls cs ih =>
    rw [untilErr] at h
    split at h
    · cases h
    · next s₁ hs₁ =>
      have hboth : (s.both fun f => Engine.stage (calls f)).2 = none := by rw [hs₁]
      have hengines := both_engines (s := s) (a := fun f => Engine.stage (calls f)) f
      rw [hs₁] at hengines
      rw [ih h, hengines]
      cases he : s.engines f with
      | none => rfl
      | some e =>
        simp only [Option.map_some, List.flatMap_cons, List.foldl_append]
        rw [stage_ok (both_ok hboth he)]

theorem prepare_links {cs : List (Family → List Call)}
    (h : untilErr (fun s calls => s.both fun f => Engine.stage (calls f)) s cs = (s', none)) :
    s'.links = s.links ∧ s'.remap = s.remap := by
  have hinv : (fun x : State σ => x.links = s.links ∧ x.remap = s.remap)
      (untilErr (fun s calls => s.both fun f => Engine.stage (calls f)) s cs).1 :=
    untilErr_inv (I := fun x : State σ => x.links = s.links ∧ x.remap = s.remap)
      (fun x calls _ hx => ⟨both_links.trans hx.1, both_remap.trans hx.2⟩) ⟨rfl, rfl⟩
  rwa [h] at hinv

end Success

section Rebuild

variable {p : Prefixes} {A : Id → Prop} {B : Prop} {e : Engine Tables}

theorem commit_ok (h : EngineOk p A B e) {raised : Bool × Bool}
    (hok : (e.commit fake raised).2 = none) :
    (e.commit fake raised).1.ipt = e.ipt ∧ (e.commit fake raised).1.kernel.WF ∧
      ∀ t c, runOps (e.ipt.script t c (chainOf e.kernel t c)) (chainOf e.kernel t c) =
        .ok (chainOf (e.commit fake raised).1.kernel t c) := by
  obtain ⟨ts', out', hc', hwf, hrun⟩ := commit_fake h.ipt h.kernel
  unfold Engine.commit at hok ⊢
  cases hc : Iptables.commit fake raised e.ipt e.kernel with
  | error err =>
    rw [hc] at hok
    cases hok
  | ok x =>
    rw [commit_raised h.kernel hc] at hc'
    cases hc'
    exact ⟨rfl, hwf, hrun⟩

theorem clean_ok (h : EngineOk p A B e) {raised : Bool × Bool}
    (hok : (e.clean fake p.chain raised).2 = none) :
    ∃ snap, snap.WF ∧ (∀ t c, chainOf snap t c = chainOf e.kernel t c) ∧
      (e.clean fake p.chain raised).1.ipt = (Engine.cleanTables p.chain e.ipt snap).1 ∧
      (e.clean fake p.chain raised).1.kernel.WF ∧
      ∀ t c, runOps ((Engine.cleanTables p.chain e.ipt snap).1.script t c (chainOf e.kernel t c))
        (chainOf e.kernel t c) = .ok (chainOf (e.clean fake p.chain raised).1.kernel t c) := by
  obtain ⟨snap, hsnap, hwf, hview⟩ := getCurrentRules_fakeSave h.kernel
  have hsave : (fake.save e.kernel).bind getCurrentRules = .ok snap := hsnap
  have hinv := cleanTables_inv (p := p) (A := A) (B := B) ⟨h.ipt, h.staged⟩ hwf
  have heq : e.clean fake p.chain raised =
      Engine.commit fake raised ⟨(Engine.cleanTables p.chain e.ipt snap).1, e.kernel⟩ := by
    simp only [Engine.clean_eq, hsave]
    rw [show Engine.cleanTables p.chain e.ipt snap = ((Engine.cleanTables p.chain e.ipt snap).1, none) from
      Cleaner.cleanTables_snd ..]
  have hmid : EngineOk p A B ⟨(Engine.cleanTables p.chain e.ipt snap).1, e.kernel⟩ :=
    ⟨hinv.1, h.kernel, hinv.2⟩
  rw [heq] at hok ⊢
  obtain ⟨hipt, hkernel, hrun⟩ := commit_ok hmid hok
  exact ⟨snap, hwf, hview, hipt, hkernel, hrun⟩

/-- The base chains and the calls of a rebuild staged on an engine. -/
def restaged {σ : Type} (calls : List Call) (e : Engine σ) : Engine σ :=
  { e.registerBaseChains with ipt := calls.foldl Call.step e.registerBaseChains.ipt }

theorem rebuilt_of_commit (h : EngineOk p A B e) {calls : List Call}
    (hcalls : ∀ c ∈ calls, c.Clean ∧ Allowed p A B c) {r r' : Bool × Bool}
    (hclean : (e.clean fake p.chain r).2 = none)
    (hcommit : ((restaged calls (e.clean fake p.chain r).1).commit fake r').2 = none) :
    Rebuilt p calls e ((restaged calls (e.clean fake p.chain r).1).commit fake r').1 := by
  obtain ⟨snap, hsnap, hview, hipt, hkernel, hrun⟩ := clean_ok h hclean
  have hbase := (h.clean r).registerBaseChains
  have hstaged : EngineOk p A B (restaged calls (e.clean fake p.chain r).1) :=
    ⟨hbase.ipt.run fun c hc => (hcalls c hc).1, hbase.kernel,
      hbase.staged.run fun c hc => (hcalls c hc).2⟩
  obtain ⟨hipt', -, hrun'⟩ := commit_ok hstaged hcommit
  refine ⟨snap, (e.clean fake p.chain r).1.kernel, hsnap, hkernel, hview, hrun, ?_, ?_⟩
  · rw [hipt', ← hipt]
    rfl
  · rw [hipt']
    exact hrun'

variable {s s' : State Tables} {looks : State.Looks}

theorem rebuild_stages (h : s.rebuildNetfilter fake p looks = (s', none)) :
    s'.links = s.links ∧ s'.remap = s.remap ∧ ∀ f,
      s'.engines f = (s.engines f).map (fun e => ((restaged (s.calls p f)
        (e.clean fake p.chain (looks.clean f)).1).commit fake (looks.commit f)).1) ∧
      ∀ e, s.engines f = some e → (e.clean fake p.chain (looks.clean f)).2 = none ∧
        ((restaged (s.calls p f) (e.clean fake p.chain (looks.clean f)).1).commit fake
          (looks.commit f)).2 = none := by
  unfold State.rebuildNetfilter at h
  split at h
  · cases h
  · next s₁ hs₁ =>
    split at h
    · cases h
    · split at h
      · cases h
      · next s₃ hs₃ =>
        split at h
        · cases h
        · have hlinks : s₁.links = s.links := by
            rw [← both_links (s := s) (a := fun f => Engine.clean fake p.chain (looks.clean f)), hs₁]
          have hremap : s₁.remap = s.remap := by
            rw [← both_remap (s := s) (a := fun f => Engine.clean fake p.chain (looks.clean f)), hs₁]
          have hclean : ∀ f, s₁.engines f = (s.engines f).map fun e =>
              (e.clean fake p.chain (looks.clean f)).1 := by
            intro f
            rw [← both_engines (a := fun f => Engine.clean fake p.chain (looks.clean f)), hs₁]
          have hcalls : ∀ f, s₁.registerBaseChains.calls p f = s.calls p f := by
            intro f
            rw [calls_eq, calls_eq, State.registerBaseChains, both_links, both_remap, hlinks, hremap]
          have hs₃f : ∀ f, s₃.engines f = (s.engines f).map fun e =>
              restaged (s.calls p f) (e.clean fake p.chain (looks.clean f)).1 := by
            intro f
            rw [prepare_ok hs₃ f, ← hcalls f, State.registerBaseChains, both_engines, hclean,
              Option.map_map, Option.map_map]
            rfl
          have hkeep := prepare_links hs₃
          have hturnl : s'.links = s₃.links := by
            rw [← inTurn_links (s := s₃) (a := fun f => Engine.commit fake (looks.commit f)), h]
          have hturnr : s'.remap = s₃.remap := by
            rw [← inTurn_remap (s := s₃) (a := fun f => Engine.commit fake (looks.commit f)), h]
          refine ⟨?_, ?_, fun f => ⟨?_, fun e he => ⟨?_, ?_⟩⟩⟩
          · rw [hturnl, hkeep.1, State.registerBaseChains, both_links, hlinks]
          · rw [hturnr, hkeep.2, State.registerBaseChains, both_remap, hremap]
          · rw [(inTurn_ok h f).1, hs₃f, Option.map_map]
            rfl
          · exact both_ok (a := fun f => Engine.clean fake p.chain (looks.clean f)) (by rw [hs₁]) he
          · exact (inTurn_ok h f).2 _ (by rw [hs₃f, he]; rfl)

theorem rebuilt_of_ok (hs : Inv p s) (h : s.rebuildNetfilter fake p looks = (s', none))
    {f : Family} {e' : Engine Tables} (he' : s'.engines f = some e') :
    ∃ e, s.engines f = some e ∧ Rebuilt p (s.calls p f) e e' := by
  obtain ⟨-, -, hstages⟩ := rebuild_stages h
  rw [(hstages f).1] at he'
  obtain ⟨e, he, rfl⟩ := Option.map_eq_some_iff.mp he'
  refine ⟨e, he, rebuilt_of_commit (hs f e he) (fun c hc => ?_) ((hstages f).2 e he).1
    ((hstages f).2 e he).2⟩
  obtain ⟨calls, hmem, hc⟩ := List.mem_flatMap.mp hc
  exact Inv.prepared_ok hmem f c hc

/-! ## Two histories -/

/-- In every base chain the jumps the cleaner puts back are the first of the configured order. -/
def LeftoverFirst (p : Prefixes) (s : State Tables) : Prop :=
  ∀ f e, s.engines f = some e → ∀ b ∈ Engine.baseChains,
    leftover p e b.1 b.2 <+: s.wantedJumps p b.1 b.2

/-- The jumps to the chains of the daemon are in configured order, and none is elsewhere. -/
def InConfiguredOrder (p : Prefixes) (s : State Tables) : Prop :=
  ∀ f e, s.engines f = some e → ∀ t c, Patched p t c →
    jumpsIn p e.kernel t c = s.wantedJumps p t c

/-- The chains with the prefix are the same, with the same rules. -/
def SameOwnChains (p : Prefixes) (s₁ s₂ : State Tables) : Prop :=
  ∀ f e₁ e₂, s₁.engines f = some e₁ → s₂.engines f = some e₂ →
    ∀ t c, Engine.isOwn p.chain c = true → (t, c) ∉ Engine.baseChains →
      chainOf e₁.kernel t c = chainOf e₂.kernel t c

/-- Each id has one mark in both, where a family has an engine in both. -/
def SameMarks (s₁ s₂ : State Tables) : Prop :=
  ∀ f, (s₁.engines f).isSome → (s₂.engines f).isSome → ∀ id, s₁.markOf id = s₂.markOf id

/-- A list followed by what it lacks of another is the other exactly if it begins it. -/
theorem append_filter_eq_iff {l k : List Iptables.Rule} (hk : k.Nodup) :
    l ++ k.filter (fun r => r ∉ l) = k ↔ l <+: k := by
  refine ⟨fun h => ⟨_, h⟩, ?_⟩
  rintro ⟨m, rfl⟩
  obtain ⟨-, -, hdis⟩ := List.nodup_append.mp hk
  have hl : l.filter (fun r => r ∉ l) = [] := by
    rw [List.filter_eq_nil_iff]
    intro x hx
    simpa using hx
  have hm : m.filter (fun r => r ∉ l) = m := by
    rw [List.filter_eq_self]
    intro x hx
    exact decide_eq_true fun hxl => hdis x hxl x hx rfl
  rw [List.filter_append, hl, hm, List.nil_append]

theorem nodup_wantedJumps {σ : Type} (s : State σ) (t c : Bytes) :
    (s.wantedJumps p t c).Nodup := by
  unfold State.wantedJumps
  split
  · exact List.nodup_dedup _
  · split
    · cases s.remap with
      | none => exact List.nodup_nil
      | some r => by_cases hon : r.enabled = true <;> simp [hon]
    · exact List.nodup_nil

theorem wantedJumps_congr {s₁ s₂ : State Tables} (hl : s₁.links = s₂.links)
    (hr : s₁.remap = s₂.remap) (t c : Bytes) : s₁.wantedJumps p t c = s₂.wantedJumps p t c := by
  unfold State.wantedJumps State.enabledLinks
  rw [hl, hr]

/-- A rebuild leaves the jumps in configured order exactly if the cleaner does. -/
theorem inConfiguredOrder_iff (hs : Inv p s) (h : s.rebuildNetfilter fake p looks = (s', none)) :
    InConfiguredOrder p s' ↔ LeftoverFirst p s := by
  have hs' : Inv p s' := by
    have := hs.rebuild looks
    rwa [h] at this
  obtain ⟨hlinks, hremap, hstages⟩ := rebuild_stages h
  have hwanted := fun t c => wantedJumps_congr (p := p) hlinks hremap t c
  have hjumps : ∀ {f e e'}, s.engines f = some e → s'.engines f = some e' → ∀ {t c},
      Patched p t c → (jumpsIn p e'.kernel t c = s'.wantedJumps p t c ↔
        leftover p e t c <+: s.wantedJumps p t c) := by
    intro f e e' he he' t c hp
    obtain ⟨e₀, he₀, hreb⟩ := rebuilt_of_ok hs h he'
    rw [he] at he₀
    cases he₀
    have hok' : EngineOk p s.Enabled s.Remapped e' := by
      refine (hs' f e' he').mono (fun id hid => ?_) fun hr => ?_
      · unfold State.Enabled at hid ⊢
        rwa [hlinks] at hid
      · unfold State.Remapped at hr ⊢
        rwa [hremap] at hr
    rw [hreb.jumpsIn_eq (hs f e he) hok' hp, hwanted]
    exact append_filter_eq_iff (nodup_wantedJumps s t c)
  refine ⟨fun hord f e he b hb => ?_, fun hfirst f e' he' t c hp => ?_⟩
  · have he' := (hstages f).1
    rw [he, Option.map_some] at he'
    exact (hjumps he he' (.inl hb)).mp (hord f _ he' b.1 b.2 (.inl hb))
  · obtain ⟨e, he, -⟩ := rebuilt_of_ok hs h he'
    refine (hjumps he he' hp).mpr ?_
    by_cases hb : (t, c) ∈ Engine.baseChains
    · exact hfirst f e he _ hb
    · -- nothing is put back elsewhere
      have hnone : leftover p e t c = [] := by
        rw [List.eq_nil_iff_forall_not_mem]
        intro x hx
        obtain ⟨en, hen, ho, -⟩ := mem_leftover (hs f e he) hx
        exact hb (mem_baseChains_of_staged hen ho)
      rw [hnone]
      exact List.nil_prefix

/-- What a rebuild leaves in the chains with the prefix. -/
theorem chainOf_rebuild (hs : Inv p s) (h : s.rebuildNetfilter fake p looks = (s', none))
    {f : Family} {e' : Engine Tables} (he' : s'.engines f = some e') {t c : Bytes}
    (ho : Engine.isOwn p.chain c = true) (hb : (t, c) ∉ Engine.baseChains) :
    chainOf e'.kernel t c =
      match atAll (s.calls p f) t c none with
      | some (.override rules) => some rules
      | _ => none := by
  obtain ⟨e, he, hreb⟩ := rebuilt_of_ok hs h he'
  have hs' := hs.rebuild looks
  rw [h] at hs'
  obtain ⟨hl, hr, -⟩ := rebuild_stages h
  refine hreb.chainOf_own ?_ ho hb
  refine (hs' f e' he').mono (fun id hid => ?_) fun hr' => ?_
  · unfold State.Enabled at hid ⊢
    rwa [hl] at hid
  · unfold State.Remapped at hr' ⊢
    rwa [hr] at hr'

/-- The chains with the prefix are the same exactly if the marks are. -/
theorem sameOwnChains_iff {s₁ s₂ s₁' s₂' : State Tables} {r₁ r₂ : State.Looks}
    (hs₁ : Inv p s₁) (hs₂ : Inv p s₂)
    (hlinks : s₁.enabledLinks.map Link.settings = s₂.enabledLinks.map Link.settings)
    (hremap : s₁.remap.filter PortRemap.enabled = s₂.remap.filter PortRemap.enabled)
    (h₁ : s₁.rebuildNetfilter fake p r₁ = (s₁', none))
    (h₂ : s₂.rebuildNetfilter fake p r₂ = (s₂', none)) :
    SameOwnChains p s₁' s₂' ↔ SameMarks s₁ s₂ := by
  have hboth : ∀ {s s' : State Tables} {r : State.Looks},
      s.rebuildNetfilter fake p r = (s', none) → ∀ f, (s'.engines f).isSome = (s.engines f).isSome := by
    intro s s' r h f
    rw [((rebuild_stages h).2.2 f).1, Option.isSome_map]
  constructor
  · intro hsame f hf₁ hf₂ id
    rw [← hboth h₁] at hf₁
    rw [← hboth h₂] at hf₂
    obtain ⟨e₁, he₁⟩ := Option.isSome_iff_exists.mp hf₁
    obtain ⟨e₂, he₂⟩ := Option.isSome_iff_exists.mp hf₂
    have hb : (str "mangle", chainName p id) ∉ Engine.baseChains := fun hb =>
      baseChains_ne_chainName p hb id rfl
    have hchain := hsame f e₁ e₂ he₁ he₂ (str "mangle") (chainName p id) (isOwn_chainName p id) hb
    rw [chainOf_rebuild hs₁ h₁ he₁ (isOwn_chainName p id) hb,
      chainOf_rebuild hs₂ h₂ he₂ (isOwn_chainName p id) hb,
      atAll_calls_mangle, atAll_calls_mangle] at hchain
    unfold State.markOf
    cases hl₁ : s₁.enabledLinks.reverse.find? fun l => l.id = id <;>
      cases hl₂ : s₂.enabledLinks.reverse.find? fun l => l.id = id <;>
      rw [hl₁, hl₂] at hchain
    · cases hchain
    · cases hchain
    · exact congrArg some (mark_of_mangleRules (Option.some.inj hchain))
  · intro hmarks f e₁ e₂ he₁ he₂ t c ho hb
    have hf₁ : (s₁.engines f).isSome := by rw [← hboth h₁, he₁]; rfl
    have hf₂ : (s₂.engines f).isSome := by rw [← hboth h₂, he₂]; rfl
    rw [chainOf_rebuild hs₁ h₁ he₁ ho hb, chainOf_rebuild hs₂ h₂ he₂ ho hb,
      atAll_calls_congr hlinks hremap (hmarks f hf₁ hf₂) hb]

end Rebuild

/-- **A rebuild depends on the configuration alone exactly if the cleaner puts jumps back in
configured order and the marks are the same.** For any two histories that lead to the same enabled
port remap, groups and subscriptions, over any tables. -/
theorem rebuild_agrees_iff (p : Prefixes) {kernels₁ kernels₂ : Family → Option Tables}
    (hk₁ : ∀ f k, kernels₁ f = some k → k.WF) (hk₂ : ∀ f k, kernels₂ f = some k → k.WF)
    {ops₁ ops₂ : List (Op Tables)} (hops₁ : ∀ op ∈ ops₁, op.WF) (hops₂ : ∀ op ∈ ops₂, op.WF)
    (hlinks : (State.after fake p kernels₁ ops₁).enabledLinks.map Link.settings =
      (State.after fake p kernels₂ ops₂).enabledLinks.map Link.settings)
    (hremap : (State.after fake p kernels₁ ops₁).remap.filter PortRemap.enabled =
      (State.after fake p kernels₂ ops₂).remap.filter PortRemap.enabled)
    {r₁ r₂ : State.Looks} {s₁ s₂ : State Tables}
    (h₁ : (State.after fake p kernels₁ ops₁).rebuildNetfilter fake p r₁ = (s₁, none))
    (h₂ : (State.after fake p kernels₂ ops₂).rebuildNetfilter fake p r₂ = (s₂, none)) :
    (SameOwnChains p s₁ s₂ ∧ InConfiguredOrder p s₁ ∧ InConfiguredOrder p s₂) ↔
      (SameMarks (State.after fake p kernels₁ ops₁) (State.after fake p kernels₂ ops₂) ∧
        LeftoverFirst p (State.after fake p kernels₁ ops₁) ∧
        LeftoverFirst p (State.after fake p kernels₂ ops₂)) := by
  have hs₁ := inv_after p hk₁ hops₁
  have hs₂ := inv_after p hk₂ hops₂
  rw [inConfiguredOrder_iff hs₁ h₁, inConfiguredOrder_iff hs₂ h₂,
    sameOwnChains_iff hs₁ hs₂ hlinks hremap h₁ h₂]

theorem State.after_concat {σ : Type} (exe : Executable σ) (p : Prefixes)
    (kernels : Family → Option σ) (ops : List (Op σ)) (op : Op σ) :
    State.after exe p kernels (ops ++ [op]) = (State.after exe p kernels ops).step exe p op :=
  List.foldl_append ..

/-! ### Two groups -/

def defaultPrefixes : Prefixes := ⟨str "MT_", str "mt_", by decide +kernel, by decide⟩

def firmwareTables : Tables :=
  [⟨str "filter", [⟨str "FORWARD", [[str "-i", str "eth0", str "-j", str "ACCEPT"]]⟩]⟩]

def firmwareKernels : Family → Option Tables
  | .v4 => some firmwareTables
  | .v6 => none

def inOrder : List (Op Tables) :=
  [.registerBaseChains, .cleanIptables, .push .group ⟨0xaa, 0, 0, 1⟩ ⟨str "nwg0", by decide⟩,
    .push .group ⟨0xbb, 0, 0, 2⟩ ⟨str "nwg1", by decide⟩, .enable .group 0 1 none none,
    .enable .group 1 2 none none]

def firstAgain : List (Op Tables) := inOrder ++ [.disable .group 0, .enable .group 0 1 none none]

def calm : State.Looks := ⟨fun _ => (false, false), false, false, fun _ => (false, false)⟩

theorem wf_firmwareKernels : ∀ f k, firmwareKernels f = some k → k.WF := by
  intro f k hk
  cases f with
  | v4 =>
    cases hk
    decide
  | v6 => cases hk

/-- The rulesets after a history, and what a rebuild then leaves in `FORWARD`. -/
structure Outcome where
  groups : List Link
  subscriptions : List Link
  remap : Option PortRemap
  err : Option Err
  forward : Option (List Iptables.Rule)
  deriving DecidableEq

def outcome (ops : List (Op Tables)) : Outcome :=
  let s := State.after fake defaultPrefixes firmwareKernels ops
  let r := s.rebuildNetfilter fake defaultPrefixes calm
  ⟨s.links .group, s.links .subscription, s.remap, r.2, (r.1.engines .v4).map fun e =>
    jumpsIn defaultPrefixes e.kernel (str "filter") (str "FORWARD")⟩

theorem rebuild_of_outcome {ops : List (Op Tables)} (h : (outcome ops).err = none) :
    (State.after fake defaultPrefixes firmwareKernels ops).rebuildNetfilter fake defaultPrefixes
        calm =
      (((State.after fake defaultPrefixes firmwareKernels ops).rebuildNetfilter fake
        defaultPrefixes calm).1, none) :=
  Prod.ext rfl h

def wipe : Op Tables := .kernel .v4 firmwareTables

def twoGroups : List Link :=
  [⟨⟨0xaa, 0, 0, 1⟩, ⟨str "nwg0", by decide⟩, 1, true⟩,
    ⟨⟨0xbb, 0, 0, 2⟩, ⟨str "nwg1", by decide⟩, 2, true⟩]

theorem outcome_inOrder_wipe : outcome (inOrder ++ [wipe]) =
    ⟨twoGroups, [], none, none, some [jump (str "MT_aa000001"), jump (str "MT_bb000002")]⟩ := by
  decide +kernel

/-- With the groups enabled in order a rebuild is right before and after the tables were
replaced. -/
theorem rebuild_agrees_iff_inOrder :
    (outcome inOrder).err = none ∧ (outcome (inOrder ++ [wipe])).err = none ∧
    ((SameOwnChains defaultPrefixes
        ((State.after fake defaultPrefixes firmwareKernels inOrder).rebuildNetfilter fake
          defaultPrefixes calm).1
        ((State.after fake defaultPrefixes firmwareKernels (inOrder ++ [wipe])).rebuildNetfilter
          fake defaultPrefixes calm).1 ∧
      InConfiguredOrder defaultPrefixes
        ((State.after fake defaultPrefixes firmwareKernels inOrder).rebuildNetfilter fake
          defaultPrefixes calm).1 ∧
      InConfiguredOrder defaultPrefixes
        ((State.after fake defaultPrefixes firmwareKernels (inOrder ++ [wipe])).rebuildNetfilter
          fake defaultPrefixes calm).1) ↔
    (SameMarks (State.after fake defaultPrefixes firmwareKernels inOrder)
        (State.after fake defaultPrefixes firmwareKernels (inOrder ++ [wipe])) ∧
      LeftoverFirst defaultPrefixes (State.after fake defaultPrefixes firmwareKernels inOrder) ∧
      LeftoverFirst defaultPrefixes
        (State.after fake defaultPrefixes firmwareKernels (inOrder ++ [wipe])))) := by
  have hok : (outcome inOrder).err = none := by decide +kernel
  have hok' : (outcome (inOrder ++ [wipe])).err = none := by rw [outcome_inOrder_wipe]
  have hafter := State.after_concat fake defaultPrefixes firmwareKernels inOrder wipe
  refine ⟨hok, hok', rebuild_agrees_iff defaultPrefixes wf_firmwareKernels wf_firmwareKernels
    (by decide) (by decide) ?_ ?_ (rebuild_of_outcome hok) (rebuild_of_outcome hok')⟩
  · rw [hafter, wipe, State.step]
    unfold State.enabledLinks
    rw [on_links]
  · rw [hafter, wipe, State.step, on_remap]

/-- After the firmware has replaced the tables, two histories of the same groups lead to different
orders of the jumps. -/
theorem rebuild_order_after_wipe :
    outcome (inOrder ++ [wipe]) =
        ⟨twoGroups, [], none, none, some [jump (str "MT_aa000001"), jump (str "MT_bb000002")]⟩ ∧
      outcome (firstAgain ++ [wipe]) =
        ⟨twoGroups, [], none, none, some [jump (str "MT_bb000002"), jump (str "MT_aa000001")]⟩ :=
  ⟨outcome_inOrder_wipe, by decide +kernel⟩

end MagiTrickle.Rebuild
