import MagiTrickle.Iptables.Transcript

/-!
# What the commands of a staged chain do

`Chain.Reached` says what a chain should look like once its staging is carried
out. Running the commands of a staged chain on the rules they were compiled
against reaches that (`script_reaches`), and against rules that have reached it
nothing is left to do (`compile_of_reached`).
-/

namespace MagiTrickle.Iptables

open MagiTrickle.Lib

/-! ## Staged chains -/

structure PatchEntry.Clean (e : PatchEntry) : Prop where
  rule : ∀ p ∈ e.rule, IsToken p
  option : e.option = .append ∨ (e.option = .insert ∧ 1 ≤ e.ruleNum ∧ e.ruleNum < 2 ^ 31) ∨
    e.option = .delete

/-- Rules are made of words; a patch chain has one entry a rule. -/
def Chain.Clean : Chain → Prop
  | .override rules => ∀ r ∈ rules, ∀ p ∈ r, IsToken p
  | .patch es => (es.map PatchEntry.rule).Nodup ∧ ∀ e ∈ es, e.Clean
  | .delete => True

/-- How often a rule should occur once its entry is carried out. -/
def PatchEntry.copies (e : PatchEntry) : Nat := if e.option = .delete then 0 else 1

/-- `v'` is what staging `c` asks for where the chain was `v`. -/
def Chain.Reached (c : Chain) (v v' : Option (List Rule)) : Prop :=
  match c with
  | .override rules => v' = some rules
  | .patch es =>
    (v.isSome → v'.isSome) ∧
      (v'.getD []).filter (fun r => r ∉ es.map PatchEntry.rule) =
        (v.getD []).filter (fun r => r ∉ es.map PatchEntry.rule) ∧
      ∀ e ∈ es, (v'.getD []).count e.rule = e.copies
  | .delete => v' = none

/-- The operations on a chain with the declaration that precedes them. -/
def Chain.script (c : Chain) (name : Bytes) (existing : Option (List Rule)) : List Op :=
  let cmds := (c.compile name existing).1
  if cmds = [] then [] else .declare :: cmds.map Command.op

/-! ## Rules and their text -/

/-- Rules made of words are told apart by their text. -/
theorem ruleString_inj {r r' : Rule} (hr : ∀ p ∈ r, IsToken p) (hr' : ∀ p ∈ r', IsToken p)
    (h : ruleString r = ruleString r') : r = r' := by
  have hw : ∀ s : Rule, (∀ p ∈ s, IsToken p) → Words.fields isBlank (ruleString s) = s :=
    fun s hs => Words.fields_unwords (by decide) s fun p hp => (hs p hp).1
  rw [← hw r hr, h, hw r' hr']

theorem count_ruleString {l : List Rule} (hl : ∀ r ∈ l, ∀ p ∈ r, IsToken p) {r : Rule}
    (hr : ∀ p ∈ r, IsToken p) : (l.map ruleString).count (ruleString r) = l.count r := by
  induction l with
  | nil => rfl
  | cons x l ih =>
    have hx := hl x (List.mem_cons_self ..)
    have hxr : (ruleString x == ruleString r) = (x == r) := by
      rw [Bool.eq_iff_iff, beq_iff_eq, beq_iff_eq]
      exact ⟨ruleString_inj hx hr, fun h => h ▸ rfl⟩
    rw [List.map_cons, List.count_cons, List.count_cons,
      ih fun r hr => hl r (List.mem_cons_of_mem _ hr), hxr]

/-! ## One entry of a patch chain -/

section Patch

variable {r : Rule} {l : List Rule}

theorem filter_ne_erase (r : Rule) (l : List Rule) :
    (l.erase r).filter (fun x => x ≠ r) = l.filter fun x => x ≠ r := by
  rw [← List.erase_filter, List.erase_of_not_mem]
  simp

theorem filter_ne_insertIdx (r : Rule) (l : List Rule) (i : Nat) :
    (l.insertIdx i r).filter (fun x => x ≠ r) = l.filter fun x => x ≠ r := by
  induction l generalizing i with
  | nil => cases i <;> simp
  | cons x l ih =>
    cases i with
    | zero => simp
    | succ i =>
      rw [List.insertIdx_succ_cons, List.filter_cons, List.filter_cons, ih]

theorem runOps_deletes (r : Rule) (n : Nat) (l : List Rule) (h : n ≤ l.count r) :
    ∃ l', runOps (List.replicate n (.delete r)) (some l) = .ok (some l') ∧
      l'.count r + n = l.count r ∧ l'.filter (fun x => x ≠ r) = l.filter fun x => x ≠ r := by
  induction n generalizing l with
  | zero => exact ⟨l, rfl, rfl, rfl⟩
  | succ n ih =>
    have hmem : r ∈ l := List.count_pos_iff.mp (by omega)
    have hcount : (l.erase r).count r = l.count r - 1 := List.count_erase_self
    obtain ⟨l', hrun, hn, hf⟩ := ih (l.erase r) (by omega)
    refine ⟨l', ?_, by omega, hf.trans (filter_ne_erase r l)⟩
    rw [List.replicate_succ, runOps_cons, Op.act, if_pos hmem]
    exact hrun

theorem runOps_entry (name : Bytes) {e : PatchEntry} (he : e.Clean) (l : List Rule) :
    ∃ l', runOps ((patchEntryCompile name (l.count e.rule) e).map Command.op) (some l) =
        .ok (some l') ∧
      l'.count e.rule = e.copies ∧
      l'.filter (fun x => x ≠ e.rule) = l.filter fun x => x ≠ e.rule := by
  obtain ⟨l₁, hrun, hcount, hf⟩ := runOps_deletes e.rule (l.count e.rule - 1) l (by omega)
  rw [patchEntryCompile, List.map_append, List.map_replicate, runOps_append]
  have hop : Command.op ⟨.delete, name, 0, e.rule⟩ = .delete e.rule := rfl
  rw [hop, hrun]
  show ∃ l', runOps _ (some l₁) = _ ∧ _
  rcases he.option with ho | ⟨ho, hpos, -⟩ | ho
  · rw [ho]
    by_cases hk : l.count e.rule > 0
    · exact ⟨l₁, by simp [hk], by simp [PatchEntry.copies, ho]; omega, hf⟩
    · refine ⟨l₁ ++ [e.rule], by simp [hk, runOps_cons, Op.act, Command.op, Except.bind], ?_, ?_⟩
      · rw [List.count_append, List.count_singleton_self]
        simp only [PatchEntry.copies, ho]
        rw [if_neg (by decide)]
        omega
      · simpa using hf
  · rw [ho]
    by_cases hk : l.count e.rule > 0
    · exact ⟨l₁, by simp [hk], by simp [PatchEntry.copies, ho]; omega, hf⟩
    · refine ⟨l₁.insertIdx (min (e.ruleNum.toNat - 1) l₁.length) e.rule, ?_, ?_, ?_⟩
      · have : ¬ e.ruleNum < 1 := by omega
        simp [hk, runOps_cons, Op.act, Command.op, Except.bind, this]
      · rw [(List.perm_insertIdx e.rule l₁ (Nat.min_le_right _ _)).count_eq, List.count_cons_self]
        simp only [PatchEntry.copies, ho]
        rw [if_neg (by decide)]
        omega
      · rw [filter_ne_insertIdx, hf]
  · rw [ho]
    by_cases hk : l.count e.rule = 0
    · exact ⟨l₁, by simp [hk], by simp [PatchEntry.copies, ho]; omega, hf⟩
    · have hmem : e.rule ∈ l₁ := List.count_pos_iff.mp (by omega)
      refine ⟨l₁.erase e.rule, ?_, ?_, ?_⟩
      · simp [hk, runOps_cons, Op.act, Command.op, Except.bind, hmem]
      · rw [List.count_erase_self]
        simp only [PatchEntry.copies, ho]
        rw [if_pos (by decide)]
        omega
      · rw [filter_ne_erase, hf]

theorem count_eq_of_filter_eq {l l' : List Rule} {p : Rule → Bool} {x : Rule} (hx : p x = true)
    (h : l'.filter p = l.filter p) : l'.count x = l.count x := by
  rw [← List.count_filter (l := l) hx, ← List.count_filter (l := l') hx, h]

/-- The rounds of a patch chain, each compiled against the rules `l₀` at the start. -/
theorem runOps_entries (name : Bytes) (l₀ : List Rule) (es : List PatchEntry)
    (hnd : (es.map PatchEntry.rule).Nodup) (hes : ∀ e ∈ es, e.Clean) (l : List Rule)
    (hl : ∀ e ∈ es, l.count e.rule = l₀.count e.rule) :
    ∃ l', runOps ((es.flatMap fun e => patchEntryCompile name (l₀.count e.rule) e).map Command.op)
        (some l) = .ok (some l') ∧
      l'.filter (fun r => r ∉ es.map PatchEntry.rule) =
        l.filter (fun r => r ∉ es.map PatchEntry.rule) ∧
      ∀ e ∈ es, l'.count e.rule = e.copies := by
  induction es generalizing l with
  | nil => exact ⟨l, rfl, rfl, by simp⟩
  | cons e es ih =>
    simp only [List.map_cons, List.nodup_cons] at hnd
    obtain ⟨l₁, hrun₁, hcount₁, hf₁⟩ := runOps_entry name (hes e (List.mem_cons_self ..)) l
    rw [hl e (List.mem_cons_self ..)] at hrun₁
    have hne : ∀ x ∈ es, x.rule ≠ e.rule := fun x hx he => hnd.1 (he ▸ List.mem_map_of_mem hx)
    -- the other rules still occur as often as at the start
    have hl₁ : ∀ x ∈ es, l₁.count x.rule = l₀.count x.rule := fun x hx => by
      rw [count_eq_of_filter_eq (by simpa using hne x hx) hf₁]
      exact hl x (List.mem_cons_of_mem _ hx)
    obtain ⟨l', hrun, hf, hcount⟩ :=
      ih hnd.2 (fun x hx => hes x (List.mem_cons_of_mem _ hx)) l₁ hl₁
    have hsplit : ∀ k : List Rule, k.filter (fun r => r ∉ (e :: es).map PatchEntry.rule) =
        (k.filter fun r => r ∉ es.map PatchEntry.rule).filter fun r => r ≠ e.rule := by
      intro k
      rw [List.filter_filter]
      apply List.filter_congr
      intro r _
      simp
    refine ⟨l', ?_, ?_, ?_⟩
    · rw [List.flatMap_cons, List.map_append, runOps_append, hrun₁]
      exact hrun
    · rw [hsplit, hsplit, hf, List.filter_comm, hf₁, List.filter_comm]
    · intro x hx
      rcases List.mem_cons.mp hx with rfl | hx
      · rw [count_eq_of_filter_eq (decide_eq_true hnd.1) hf, hcount₁]
      · exact hcount x hx

end Patch

/-! ## Commands of a staged chain -/

theorem patchCompile_eq {es : List PatchEntry} (hes : ∀ e ∈ es, e.Clean) (name : Bytes)
    {v : Option (List Rule)} (hv : ∀ r ∈ v.getD [], ∀ p ∈ r, IsToken p) :
    patchCompile es name v =
      es.flatMap fun e => patchEntryCompile name ((v.getD []).count e.rule) e := by
  apply List.flatMap_congr
  intro e he
  rw [count_ruleString hv (hes e he).rule]

theorem script_eq_nil {c : Chain} {name : Bytes} {v : Option (List Rule)}
    (h : (c.compile name v).1 = []) : c.script name v = [] := if_pos h

theorem runOps_script {c : Chain} {name : Bytes} {v : Option (List Rule)}
    (h : (c.compile name v).1 ≠ []) :
    runOps (c.script name v) v = runOps ((c.compile name v).1.map Command.op) (some (v.getD [])) := by
  rw [Chain.script, if_neg h, runOps_cons]
  rfl

/-- The commands of a staged chain carry out the staging. -/
theorem script_reaches {c : Chain} (hc : c.Clean) (name : Bytes) {v : Option (List Rule)}
    (hv : ∀ r ∈ v.getD [], ∀ p ∈ r, IsToken p) :
    ∃ v', runOps (c.script name v) v = .ok v' ∧ c.Reached v v' := by
  by_cases hcmds : (c.compile name v).1 = []
  · refine ⟨v, by rw [script_eq_nil hcmds]; rfl, ?_⟩
    cases c with
    | override rules =>
      simp only [Chain.compile, overrideCompile] at hcmds
      split at hcmds
      · next h => exact h
      · exact absurd hcmds (List.cons_ne_nil _ _)
    | patch es =>
      obtain ⟨l', hrun, -, hcount⟩ := runOps_entries name (v.getD []) es hc.1 hc.2 (v.getD [])
        fun _ _ => rfl
      rw [← patchCompile_eq hc.2 name hv, show patchCompile es name v = [] from hcmds] at hrun
      cases hrun
      exact ⟨id, rfl, hcount⟩
    | delete =>
      simp only [Chain.compile, deleteCompile] at hcmds
      split at hcmds
      · next h => exact h
      · exact absurd hcmds (List.cons_ne_nil _ _)
  · rw [runOps_script hcmds]
    cases c with
    | override rules =>
      have hne : v ≠ some rules := fun h => hcmds (if_pos h)
      refine ⟨some rules, ?_, rfl⟩
      rw [Chain.compile, overrideCompile, if_neg hne, List.map_cons, runOps_cons, List.map_map]
      show runOps (rules.map .append) (some []) = _
      rw [runOps_appends, List.nil_append]
    | patch es =>
      obtain ⟨l', hrun, hf, hcount⟩ := runOps_entries name (v.getD []) es hc.1 hc.2 (v.getD [])
        fun _ _ => rfl
      rw [← patchCompile_eq hc.2 name hv] at hrun
      exact ⟨some l', hrun, fun _ => rfl, hf, hcount⟩
    | delete =>
      have hne : v ≠ none := fun h => hcmds (if_pos h)
      refine ⟨none, ?_, rfl⟩
      rw [Chain.compile, deleteCompile, if_neg hne]
      rfl

/-- Nothing is left to do once the staging is carried out. -/
theorem compile_of_reached {c : Chain} (hc : c.Clean) (name : Bytes) {v v' : Option (List Rule)}
    (hv' : ∀ r ∈ v'.getD [], ∀ p ∈ r, IsToken p) (h : c.Reached v v') :
    (c.compile name v').1 = [] := by
  cases c with
  | override rules => exact if_pos h
  | delete => exact if_pos h
  | patch es =>
    rw [Chain.compile, patchCompile_eq hc.2 name hv', List.flatMap_eq_nil_iff]
    intro e he
    rw [patchEntryCompile, h.2.2 e he]
    rcases (hc.2 e he).option with ho | ⟨ho, -⟩ | ho <;> simp [PatchEntry.copies, ho]

theorem mem_patchEntryCompile {name : Bytes} {k : Nat} {e : PatchEntry} {cmd : Command}
    (h : cmd ∈ patchEntryCompile name k e) :
    cmd = ⟨.delete, name, 0, e.rule⟩ ∨ (e.option = .append ∧ cmd = ⟨.append, name, 0, e.rule⟩) ∨
      (e.option = .insert ∧ cmd = ⟨.insert, name, e.ruleNum, e.rule⟩) := by
  rcases List.mem_append.mp h with h | h
  · exact .inl (List.eq_of_mem_replicate h)
  · cases ho : e.option <;> simp only [ho] at h <;> try split at h
    all_goals simp_all

theorem chain_of_mem_compile {c : Chain} {name : Bytes} {v : Option (List Rule)} {cmd : Command}
    (h : cmd ∈ (c.compile name v).1) : cmd.chain = name := by
  cases c with
  | override rules =>
    simp only [Chain.compile, overrideCompile] at h
    split at h
    · exact absurd h List.not_mem_nil
    · rcases List.mem_cons.mp h with rfl | h
      · rfl
      · obtain ⟨r, -, rfl⟩ := List.mem_map.mp h
        rfl
  | patch es =>
    obtain ⟨e, -, h⟩ := List.mem_flatMap.mp h
    rcases mem_patchEntryCompile h with rfl | ⟨-, rfl⟩ | ⟨-, rfl⟩ <;> rfl
  | delete =>
    simp only [Chain.compile, deleteCompile] at h
    split at h <;> simp_all
    rcases h with rfl | rfl <;> rfl

theorem clean_of_mem_compile {c : Chain} (hc : c.Clean) {name : Bytes} {v : Option (List Rule)}
    {cmd : Command} (h : cmd ∈ (c.compile name v).1) : cmd.op.Clean := by
  cases c with
  | override rules =>
    simp only [Chain.compile, overrideCompile] at h
    split at h
    · exact absurd h List.not_mem_nil
    · rcases List.mem_cons.mp h with rfl | h
      · trivial
      · obtain ⟨r, hr, rfl⟩ := List.mem_map.mp h
        exact hc r hr
  | patch es =>
    obtain ⟨e, he, h⟩ := List.mem_flatMap.mp h
    have hrule := (hc.2 e he).rule
    rcases mem_patchEntryCompile h with rfl | ⟨-, rfl⟩ | ⟨ho, rfl⟩
    · exact hrule
    · exact hrule
    · rcases (hc.2 e he).option with ho' | ⟨-, hpos⟩ | ho'
      · exact absurd (ho.symm.trans ho') (by decide)
      · exact ⟨hpos, hrule⟩
      · exact absurd (ho.symm.trans ho') (by decide)
  | delete =>
    simp only [Chain.compile, deleteCompile] at h
    split at h
    · exact absurd h List.not_mem_nil
    · rcases List.mem_cons.mp h with rfl | h
      · trivial
      · rw [List.mem_singleton.mp h]
        trivial

end MagiTrickle.Iptables
