import Mathlib.Data.List.Perm.Basic
import MagiTrickle.Iptables.Script

/-!
# The listing is read back

`fakeSave` prints the tables as blocks of declarations and rules. The engine
parses the listing into tables with the same rules in every chain
(`getCurrentRules_fakeSave`); only the order of tables and chains may differ.
-/

namespace MagiTrickle.Iptables

open MagiTrickle.Lib

/-! ## Printing -/

theorem cons_flatMap_blank (w : Bytes) (ws : List Bytes) :
    w ++ ws.flatMap (fun p => 32 :: p) = Words.unwords 32 (w :: ws) := by
  induction ws generalizing w with
  | nil => simp
  | cons v ws ih => rw [Words.unwords_cons_cons, ← ih v, List.flatMap_cons, List.cons_append]

def sortedChains (t : TableRules) : List ChainRules :=
  t.chains.insertionSort fun a b => strLe a.name b.name

def saveBlock (t : TableRules) : Block :=
  ⟨t.name, (sortedChains t).flatMap (fun c => [(c.name, .declare)]) ++
    (sortedChains t).flatMap fun c => c.rules.map fun r => (c.name, .append r)⟩

def saveBlocks (ts : Tables) : List Block :=
  (ts.insertionSort fun a b => strLe a.name b.name).map saveBlock

theorem flatMap_terminated_map {α : Type} (xs : List α) (f : α → List (Bytes × Op)) :
    ((xs.flatMap f).map fun o => opLine o.1 o.2).flatMap (· ++ [10]) =
      xs.flatMap fun x => (f x).flatMap fun o => opLine o.1 o.2 ++ [10] := by
  induction xs with
  | nil => rfl
  | cons x xs ih =>
    rw [List.flatMap_cons, List.map_append, List.flatMap_append, ih, List.flatMap_map,
      List.flatMap_cons]

theorem saveChains_eq (t : TableRules) :
    saveChains t.chains = ((saveBlock t).ops.map fun o => opLine o.1 o.2).flatMap (· ++ [10]) := by
  rw [saveBlock, List.map_append, List.flatMap_append, flatMap_terminated_map,
    flatMap_terminated_map]
  show (sortedChains t).flatMap _ ++ (sortedChains t).flatMap _ = _
  congr 1
  · apply List.flatMap_congr
    intro c _
    simp [opLine, str]
  · apply List.flatMap_congr
    intro c _
    rw [List.flatMap_map]
    apply List.flatMap_congr
    intro r _
    rw [opLine, Words.unwords_cons_cons, ← cons_flatMap_blank]
    simp [writeRuleParts, str]

theorem fakeSave_eq (ts : Tables) : fakeSave ts = (saveBlocks ts).flatMap Block.text := by
  rw [fakeSave, saveBlocks, List.flatMap_map]
  apply List.flatMap_congr
  intro t _
  rw [saveChains_eq]
  simp [Block.text, Block.lines, saveBlock, List.flatMap_append, str]

/-! ## Parsing -/

theorem clean_saveBlock {t : TableRules} (h : t.WF) : (saveBlock t).Clean := by
  intro cmd hcmd
  rcases List.mem_cons.mp hcmd with rfl | hcmd
  · exact h.name
  obtain ⟨o, ho, rfl⟩ := List.mem_map.mp hcmd
  refine ⟨h.name, ?_⟩
  rcases List.mem_append.mp ho with ho | ho
  · obtain ⟨c, hc, ho⟩ := List.mem_flatMap.mp ho
    obtain rfl := List.mem_singleton.mp ho
    exact ⟨(h.chains c ((List.mem_insertionSort ..).mp hc)).name, trivial⟩
  · obtain ⟨c, hc, ho⟩ := List.mem_flatMap.mp ho
    obtain ⟨r, hr, rfl⟩ := List.mem_map.mp ho
    have hwf := h.chains c ((List.mem_insertionSort ..).mp hc)
    exact ⟨hwf.name, hwf.rules r hr⟩

theorem listed_saveBlock (t : TableRules) : ∀ o ∈ (saveBlock t).ops, o.2.Listed := by
  intro o ho
  rcases List.mem_append.mp ho with ho | ho
  · obtain ⟨c, -, ho⟩ := List.mem_flatMap.mp ho
    obtain rfl := List.mem_singleton.mp ho
    trivial
  · obtain ⟨c, -, ho⟩ := List.mem_flatMap.mp ho
    obtain ⟨r, -, rfl⟩ := List.mem_map.mp ho
    trivial

theorem nodup_sortedChains {t : TableRules} (h : t.WF) :
    ((sortedChains t).map ChainRules.name).Nodup :=
  ((List.perm_insertionSort ..).map _).nodup_iff.mpr h.nodup

theorem opsOf_saveBlock {t : TableRules} (h : t.WF) {c : ChainRules} (hc : c ∈ t.chains) :
    (saveBlock t).opsOf c.name = .declare :: c.rules.map .append := by
  have hmem : c ∈ sortedChains t := (List.mem_insertionSort ..).mpr hc
  have hother : ∀ y ∈ sortedChains t, y.name ≠ c.name →
      ∀ o ∈ y.rules.map (fun r => (y.name, Op.append r)), decide (o.1 = c.name) = false := by
    intro y _ hne o ho
    obtain ⟨r, -, rfl⟩ := List.mem_map.mp ho
    exact decide_eq_false hne
  have hown : ∀ o ∈ c.rules.map (fun r => (c.name, Op.append r)), decide (o.1 = c.name) = true := by
    intro o ho
    obtain ⟨r, -, rfl⟩ := List.mem_map.mp ho
    exact decide_eq_true rfl
  rw [Block.opsOf, saveBlock, List.filter_append,
    Keyed.filter_flatMap_of_mem (nodup_sortedChains h) hmem (by simp),
    Keyed.filter_flatMap_of_mem (nodup_sortedChains h) hmem hother, List.filter_eq_self.mpr hown]
  simp [Function.comp_def]

theorem opsOf_saveBlock_of_not_mem {t : TableRules} {c : Bytes} (h : ∀ x ∈ t.chains, x.name ≠ c) :
    (saveBlock t).opsOf c = [] := by
  have hmem : ∀ x ∈ sortedChains t, x.name ≠ c := fun x hx => h x ((List.mem_insertionSort ..).mp hx)
  rw [Block.opsOf, saveBlock, List.filter_append, Keyed.filter_flatMap_eq_nil,
    Keyed.filter_flatMap_eq_nil]
  · rfl
  · intro x hx o ho
    obtain ⟨r, -, rfl⟩ := List.mem_map.mp ho
    simpa using hmem x hx
  · intro x hx o ho
    obtain rfl := List.mem_singleton.mp ho
    simpa using hmem x hx

theorem cell_saveBlocks {ts : Tables} (h : ts.WF) (t c : Bytes) :
    machine.cell ((saveBlocks ts).flatMap Block.cmds) (t, c) none = .ok (chainOf ts t c) := by
  have hnd : ((saveBlocks ts).map Block.table).Nodup := by
    rw [saveBlocks, List.map_map]
    exact ((List.perm_insertionSort ..).map _).nodup_iff.mpr h.nodup
  unfold chainOf
  cases ht : ts.find? fun t' => t'.name = t with
  | none =>
    rw [cell_of_not_mem]
    · rfl
    · intro b hb
      obtain ⟨t', ht', rfl⟩ := List.mem_map.mp hb
      show t'.name ≠ t
      simpa using List.find?_eq_none.mp ht t' ((List.mem_insertionSort ..).mp ht')
  | some t' =>
    have hmem := List.mem_of_find?_eq_some ht
    obtain rfl : t'.name = t := by simpa using List.find?_some ht
    have hb : saveBlock t' ∈ saveBlocks ts :=
      List.mem_map_of_mem ((List.mem_insertionSort ..).mpr hmem)
    rw [show t'.name = (saveBlock t').table from rfl, cell_of_mem hnd hb c]
    cases hc : t'.chains.find? fun c' => c'.name = c with
    | none =>
      rw [opsOf_saveBlock_of_not_mem fun x hx => by simpa using List.find?_eq_none.mp hc x hx]
      simp [hc]
    | some c' =>
      obtain rfl : c'.name = c := by simpa using List.find?_some hc
      rw [opsOf_saveBlock (h.tables t' hmem) (List.mem_of_find?_eq_some hc), runOps_cons]
      show runOps _ (some []) = _
      rw [runOps_appends]
      simp [hc]

/-- The engine sees every chain as it is. -/
theorem getCurrentRules_fakeSave {ts : Tables} (h : ts.WF) :
    ∃ cur, getCurrentRules (fakeSave ts) = .ok cur ∧ cur.WF ∧
      ∀ t c, chainOf cur t c = chainOf ts t c := by
  have hwf : ∀ b ∈ saveBlocks ts, ∃ t ∈ ts, b = saveBlock t := by
    intro b hb
    obtain ⟨t, ht, rfl⟩ := List.mem_map.mp hb
    exact ⟨t, (List.mem_insertionSort ..).mp ht, rfl⟩
  have hclean : ∀ b ∈ saveBlocks ts, b.Clean := by
    intro b hb
    obtain ⟨t, ht, rfl⟩ := hwf b hb
    exact clean_saveBlock (h.tables t ht)
  have hlisted : ∀ b ∈ saveBlocks ts, ∀ o ∈ b.ops, o.2.Listed := by
    intro b hb
    obtain ⟨t, -, rfl⟩ := hwf b hb
    exact listed_saveBlock t
  rw [fakeSave_eq, getCurrentRules_blocks _ hclean hlisted]
  have hgood : ∀ cmd ∈ (saveBlocks ts).flatMap Block.cmds, cmd.Clean := by
    intro cmd hcmd
    obtain ⟨b, hb, hcmd⟩ := List.mem_flatMap.mp hcmd
    exact hclean b hb cmd hcmd
  obtain ⟨cur, hrun, hwf', hview⟩ := machine.run_ok ((saveBlocks ts).flatMap Block.cmds) []
    ⟨List.nodup_nil, by simp⟩ hgood (fun k => chainOf ts k.1 k.2) fun k => cell_saveBlocks h k.1 k.2
  exact ⟨cur, hrun, hwf', fun t c => hview (t, c)⟩

end MagiTrickle.Iptables
