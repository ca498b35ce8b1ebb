import MagiTrickle.Iptables.Commit

/-!
# The order of the rules of a patch chain

`Chain.Reached` counts the rules of a patch chain and says nothing about where
the appended ones end up. For a chain whose entries append and delete, and whose
appended rules do not occur twice, `getD_of_patch` gives the rules exactly: what
is not deleted stays in place, and the missing rules follow in staging order.
-/

namespace MagiTrickle.Iptables

open MagiTrickle.Lib

def deletedRules (es : List PatchEntry) : List Rule :=
  (es.filter fun e => e.option = .delete).map PatchEntry.rule

def missingRules (es : List PatchEntry) (l : List Rule) : List Rule :=
  (es.filter fun e => e.option ≠ .delete ∧ e.rule ∉ l).map PatchEntry.rule

theorem mem_deletedRules {es : List PatchEntry} {r : Rule} :
    r ∈ deletedRules es ↔ ∃ e ∈ es, e.option = .delete ∧ e.rule = r := by
  simp [deletedRules, and_assoc]

theorem mem_missingRules {es : List PatchEntry} {l : List Rule} {r : Rule} :
    r ∈ missingRules es l ↔ ∃ e ∈ es, e.option ≠ .delete ∧ e.rule ∉ l ∧ e.rule = r := by
  simp [missingRules, and_assoc]

theorem nodup_missingRules {es : List PatchEntry} (h : (es.map PatchEntry.rule).Nodup)
    (l : List Rule) : (missingRules es l).Nodup :=
  h.sublist (List.filter_sublist.map _)

theorem missingRules_congr {es : List PatchEntry} {l l' : List Rule}
    (h : ∀ e ∈ es, e.rule ∈ l ↔ e.rule ∈ l') : missingRules es l = missingRules es l' := by
  rw [missingRules, missingRules]
  congr 1
  apply List.filter_congr
  intro e he
  simp only [h e he]

def AppendsOrDeletes (es : List PatchEntry) : Prop :=
  ∀ e ∈ es, e.option = .append ∨ e.option = .delete

section Entries

variable {n : Bytes}

theorem runOps_delete_entry {e : PatchEntry} (he : e.Clean) (ho : e.option = .delete)
    (l : List Rule) :
    runOps ((patchEntryCompile n (l.count e.rule) e).map Command.op) (some l) =
      .ok (some (l.filter fun r => r ≠ e.rule)) := by
  obtain ⟨l', hrun, hcount, hf⟩ := runOps_entry n he l
  have hnone : e.rule ∉ l' := by
    rw [← List.count_eq_zero, hcount, PatchEntry.copies, if_pos ho]
  have hself : l'.filter (fun r => r ≠ e.rule) = l' := by
    rw [List.filter_eq_self]
    intro r hr
    exact decide_eq_true fun h => hnone (h ▸ hr)
  rw [hrun, ← hf, hself]

theorem runOps_append_entry {e : PatchEntry} (ho : e.option = .append) {l : List Rule}
    (hl : l.count e.rule ≤ 1) :
    runOps ((patchEntryCompile n (l.count e.rule) e).map Command.op) (some l) =
      .ok (some (if e.rule ∈ l then l else l ++ [e.rule])) := by
  by_cases hmem : e.rule ∈ l
  · have hone : l.count e.rule = 1 := by
      have := List.count_pos_iff.mpr hmem
      omega
    rw [if_pos hmem, patchEntryCompile, hone, ho]
    rfl
  · rw [if_neg hmem, patchEntryCompile, List.count_eq_zero.mpr hmem, ho]
    rfl

/-- The rounds of a patch chain in order, each compiled against the rules `l₀` at the start. -/
theorem runOps_entries_order (l₀ : List Rule) (es : List PatchEntry)
    (hnd : (es.map PatchEntry.rule).Nodup) (hes : ∀ e ∈ es, e.Clean) (hops : AppendsOrDeletes es)
    (hone : ∀ e ∈ es, e.option = .append → l₀.count e.rule ≤ 1) (l : List Rule)
    (hl : ∀ e ∈ es, l.count e.rule = l₀.count e.rule) :
    runOps ((es.flatMap fun e => patchEntryCompile n (l₀.count e.rule) e).map Command.op)
        (some l) =
      .ok (some (l.filter (fun r => r ∉ deletedRules es) ++ missingRules es l)) := by
  induction es generalizing l with
  | nil =>
    simp only [deletedRules, missingRules, List.filter_nil, List.map_nil, List.append_nil]
    rw [List.filter_eq_self.mpr (by simp)]
    rfl
  | cons e es ih =>
    simp only [List.map_cons, List.nodup_cons] at hnd
    have hne : ∀ x ∈ es, x.rule ≠ e.rule := fun x hx he => hnd.1 (he ▸ List.mem_map_of_mem hx)
    have hcount := hl e (List.mem_cons_self ..)
    have ih := ih hnd.2 (fun x hx => hes x (List.mem_cons_of_mem _ hx))
      (fun x hx => hops x (List.mem_cons_of_mem _ hx))
      fun x hx => hone x (List.mem_cons_of_mem _ hx)
    rw [List.flatMap_cons, List.map_append, runOps_append, ← hcount]
    rcases hops e (List.mem_cons_self ..) with ho | ho
    · -- an appended rule: nothing else about the list changes for the entries to come
      have hle : l.count e.rule ≤ 1 := hcount ▸ hone e (List.mem_cons_self ..) ho
      have hmem : ∀ x ∈ es, x.rule ∈ (if e.rule ∈ l then l else l ++ [e.rule]) ↔ x.rule ∈ l := by
        intro x hx
        by_cases h : e.rule ∈ l <;> simp [h, hne x hx]
      have hcnt : ∀ x ∈ es, (if e.rule ∈ l then l else l ++ [e.rule]).count x.rule =
          l₀.count x.rule := by
        intro x hx
        rw [← hl x (List.mem_cons_of_mem _ hx)]
        by_cases h : e.rule ∈ l <;> simp [h, Ne.symm (hne x hx)]
      have hdel : e.rule ∉ deletedRules es := fun h => by
        obtain ⟨x, hx, -, hxe⟩ := mem_deletedRules.mp h
        exact hne x hx hxe
      have hdel' : deletedRules (e :: es) = deletedRules es := by simp [deletedRules, ho]
      rw [runOps_append_entry ho hle]
      show runOps _ _ = _
      rw [ih _ hcnt, missingRules_congr hmem, hdel']
      by_cases h : e.rule ∈ l
      · simp [missingRules, h]
      · simp [missingRules, h, ho, hdel]
    · have hmem : ∀ x ∈ es, x.rule ∈ l.filter (fun r => r ≠ e.rule) ↔ x.rule ∈ l := by
        intro x hx
        simp [hne x hx]
      have hcnt : ∀ x ∈ es, (l.filter fun r => r ≠ e.rule).count x.rule = l₀.count x.rule := by
        intro x hx
        rw [← hl x (List.mem_cons_of_mem _ hx)]
        exact List.count_filter (decide_eq_true (hne x hx))
      rw [runOps_delete_entry (hes e (List.mem_cons_self ..)) ho]
      show runOps _ _ = _
      rw [ih _ hcnt, missingRules_congr hmem, List.filter_filter]
      have hdel : l.filter (fun r => decide (r ∉ deletedRules es) && decide (r ≠ e.rule)) =
          l.filter fun r => r ∉ deletedRules (e :: es) := by
        apply List.filter_congr
        intro r _
        by_cases hr : r = e.rule <;> simp [deletedRules, ho, hr]
      have hmiss : missingRules (e :: es) l = missingRules es l := by simp [missingRules, ho]
      rw [hdel, hmiss]

end Entries

section Patch

variable {es : List PatchEntry} {name : Bytes} {v v' : Option (List Rule)}

/-- The rules of a patch chain after its commands. -/
theorem getD_of_patch (hc : (Chain.patch es).Clean) (hv : ∀ r ∈ v.getD [], ∀ p ∈ r, IsToken p)
    (hops : AppendsOrDeletes es)
    (hone : ∀ e ∈ es, e.option = .append → (v.getD []).count e.rule ≤ 1)
    (hrun : runOps ((Chain.patch es).script name v) v = .ok v') :
    v'.getD [] = (v.getD []).filter (fun r => r ∉ deletedRules es) ++
      missingRules es (v.getD []) := by
  have horder := runOps_entries_order (n := name) (v.getD []) es hc.1 hc.2 hops hone (v.getD [])
    fun _ _ => rfl
  rw [← patchCompile_eq hc.2 name hv] at horder
  by_cases hcmds : ((Chain.patch es).compile name v).1 = []
  · rw [script_eq_nil hcmds] at hrun
    rw [show patchCompile es name v = [] from hcmds] at horder
    cases hrun
    exact Option.some.inj (Except.ok.inj horder)
  · rw [runOps_script hcmds, Chain.compile, horder] at hrun
    cases hrun
    rfl

end Patch

end MagiTrickle.Iptables
