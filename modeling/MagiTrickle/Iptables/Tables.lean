import MagiTrickle.Iptables.Chain
import MagiTrickle.Lib.Upsert

/-!
# Table contents

The rules of all tables, as the parsed listing and the unit tests' fake
executable keep them: tables and, inside a table, chains are found by name and
created on demand. `chainOf` is what the rest of the development reads off.
-/

namespace MagiTrickle.Iptables

open MagiTrickle.Lib

/-- `mt_ipt_chain_rules_t`, `chain_builder_t` and `fake_chain_t`. -/
structure ChainRules where
  name : Bytes
  rules : List Rule
  deriving DecidableEq, Repr

/-- `mt_ipt_table_rules_t`, `table_builder_t` and `fake_table_t`. -/
structure TableRules where
  name : Bytes
  chains : List ChainRules
  deriving DecidableEq, Repr

abbrev Tables := List TableRules

/-- `mt_ipt_table_rules_find_chain` in the table found by name. -/
def chainOf (ts : Tables) (table chain : Bytes) : Option (List Rule) :=
  (ts.find? fun t => t.name = table).bind fun t =>
    (t.chains.find? fun c => c.name = chain).map ChainRules.rules

/-- `tb_find_or_create` and `ft_find_or_create`. -/
def openTable (ts : Tables) (table : Bytes) : Tables :=
  upsert TableRules.name table ⟨table, []⟩ id ts

/-- Find or create the chain, and replace its rules. -/
def updateChain (cs : List ChainRules) (chain : Bytes) (f : List Rule → List Rule) :
    List ChainRules :=
  upsert ChainRules.name chain ⟨chain, f []⟩ (fun c => { c with rules := f c.rules }) cs

/-- `updateChain` in the table under the current name. -/
def setChain (ts : Tables) (table chain : Bytes) (f : List Rule → List Rule) : Tables :=
  upsert TableRules.name table ⟨table, updateChain [] chain f⟩
    (fun t => { t with chains := updateChain t.chains chain f }) ts

/-- Remove the first chain of that name. -/
def dropChain (ts : Tables) (table chain : Bytes) : Tables :=
  upsert TableRules.name table ⟨table, []⟩
    (fun t => { t with chains := t.chains.eraseP fun c => c.name = chain }) ts

/-! ## Lookup after an update -/

theorem keyed_chain (chain : Bytes) (f : List Rule → List Rule) :
    Upsert.Keyed ChainRules.name ⟨chain, ⟨chain, f []⟩, fun c => { c with rules := f c.rules }⟩ :=
  ⟨rfl, fun _ he => he⟩

@[simp] theorem chainOf_openTable (ts : Tables) (table table' chain : Bytes) :
    chainOf (openTable ts table) table' chain = chainOf ts table' chain := by
  have hk : Upsert.Keyed TableRules.name ⟨table, ⟨table, []⟩, id⟩ := ⟨rfl, fun _ he => he⟩
  unfold chainOf openTable
  by_cases h : table' = table
  · subst h
    rw [Upsert.find?_upsert_self hk]
    cases ts.find? fun t => t.name = table' <;> rfl
  · rw [Upsert.find?_upsert_ne hk h]

theorem find?_updateChain (cs : List ChainRules) (chain chain' : Bytes) (f : List Rule → List Rule) :
    ((updateChain cs chain f).find? fun c => c.name = chain').map ChainRules.rules =
      if chain' = chain then
        some (f (((cs.find? fun c => c.name = chain).map ChainRules.rules).getD []))
      else (cs.find? fun c => c.name = chain').map ChainRules.rules := by
  unfold updateChain
  by_cases h : chain' = chain
  · subst h
    rw [if_pos rfl, Upsert.find?_upsert_self (keyed_chain chain' f)]
    cases cs.find? fun c => c.name = chain' <;> rfl
  · rw [if_neg h, Upsert.find?_upsert_ne (keyed_chain chain f) h]

/-- `setChain` changes one chain of one table. -/
theorem chainOf_setChain (ts : Tables) (table chain table' chain' : Bytes)
    (f : List Rule → List Rule) :
    chainOf (setChain ts table chain f) table' chain' =
      if table' = table ∧ chain' = chain then some (f ((chainOf ts table chain).getD []))
      else chainOf ts table' chain' := by
  have hk : Upsert.Keyed TableRules.name ⟨table, ⟨table, updateChain [] chain f⟩,
      fun t => { t with chains := updateChain t.chains chain f }⟩ := ⟨rfl, fun _ he => he⟩
  unfold chainOf setChain
  by_cases h : table' = table
  · subst h
    rw [Upsert.find?_upsert_self hk]
    cases ts.find? fun t => t.name = table' with
    | none =>
      simp only [Option.map_none, Option.getD_none, Option.bind_some, find?_updateChain, true_and]
      rfl
    | some t =>
      simp only [Option.map_some, Option.getD_some, Option.bind_some, find?_updateChain, true_and]
  · rw [Upsert.find?_upsert_ne hk h, if_neg (fun hh => h hh.1)]

/-! ## Well-formed contents -/

/-- A name or part that survives being printed and split. -/
def IsToken (b : Bytes) : Prop := Words.IsWord isBlank b ∧ (10 : UInt8) ∉ b

instance (b : Bytes) : Decidable (IsToken b) :=
  inferInstanceAs (Decidable (Words.IsWord isBlank b ∧ (10 : UInt8) ∉ b))

/-- Names are distinct words, and so are the parts of rules. -/
structure ChainRules.WF (c : ChainRules) : Prop where
  name : IsToken c.name
  rules : ∀ r ∈ c.rules, ∀ p ∈ r, IsToken p

structure TableRules.WF (t : TableRules) : Prop where
  name : IsToken t.name
  nodup : (t.chains.map ChainRules.name).Nodup
  chains : ∀ c ∈ t.chains, c.WF

structure Tables.WF (ts : Tables) : Prop where
  nodup : (ts.map TableRules.name).Nodup
  tables : ∀ t ∈ ts, t.WF

instance (c : ChainRules) : Decidable c.WF :=
  decidable_of_iff (IsToken c.name ∧ ∀ r ∈ c.rules, ∀ p ∈ r, IsToken p)
    ⟨fun h => ⟨h.1, h.2⟩, fun h => ⟨h.name, h.rules⟩⟩

instance (t : TableRules) : Decidable t.WF :=
  decidable_of_iff (IsToken t.name ∧ (t.chains.map ChainRules.name).Nodup ∧ ∀ c ∈ t.chains, c.WF)
    ⟨fun h => ⟨h.1, h.2.1, h.2.2⟩, fun h => ⟨h.name, h.nodup, h.chains⟩⟩

instance (ts : Tables) : Decidable ts.WF :=
  decidable_of_iff ((ts.map TableRules.name).Nodup ∧ ∀ t ∈ ts, t.WF)
    ⟨fun h => ⟨h.1, h.2⟩, fun h => ⟨h.nodup, h.tables⟩⟩

/-- An update of one table keeps the contents well formed if it does so for that table. -/
theorem Tables.WF.upsert {ts : Tables} (h : ts.WF) {u : Upsert Bytes TableRules}
    (hu : u.Keyed TableRules.name) (hnew : u.new.WF) (hupd : ∀ t, t.WF → (u.upd t).WF) :
    Tables.WF (Lib.upsert TableRules.name u.k u.new u.upd ts) where
  nodup := Upsert.nodup_upsert hu h.nodup
  tables t ht := by
    rcases Upsert.mem_upsert ht with ht | ⟨t', ht', -, rfl⟩ | rfl
    · exact h.tables t ht
    · exact hupd t' (h.tables t' ht')
    · exact hnew

theorem Tables.WF.openTable {ts : Tables} (h : ts.WF) {table : Bytes} (ht : IsToken table) :
    Tables.WF (openTable ts table) :=
  h.upsert (u := ⟨table, ⟨table, []⟩, id⟩) ⟨rfl, fun _ he => he⟩ ⟨ht, by simp, by simp⟩ fun _ ht => ht

/-- The rules of a chain stay words. -/
def KeepsWords (f : List Rule → List Rule) : Prop :=
  ∀ l : List Rule, (∀ r ∈ l, ∀ p ∈ r, IsToken p) → ∀ r ∈ f l, ∀ p ∈ r, IsToken p

theorem TableRules.WF.updateChain {t : TableRules} (h : t.WF) {chain : Bytes}
    (hc : IsToken chain) {f : List Rule → List Rule} (hf : KeepsWords f) :
    TableRules.WF { t with chains := updateChain t.chains chain f } where
  name := h.name
  nodup := Upsert.nodup_upsert (keyed_chain chain f) h.nodup
  chains c hmem := by
    rcases Upsert.mem_upsert (u := ⟨chain, _, _⟩) hmem with hmem | ⟨c', hmem', -, rfl⟩ | rfl
    · exact h.chains c hmem
    · exact ⟨(h.chains c' hmem').name, hf _ (h.chains c' hmem').rules⟩
    · exact ⟨hc, hf [] (by simp)⟩

theorem Tables.WF.setChain {ts : Tables} (h : ts.WF) {table chain : Bytes} (ht : IsToken table)
    (hc : IsToken chain) {f : List Rule → List Rule} (hf : KeepsWords f) :
    Tables.WF (setChain ts table chain f) :=
  h.upsert (u := ⟨table, _, _⟩) ⟨rfl, fun _ he => he⟩
    (TableRules.WF.updateChain (t := ⟨table, []⟩) ⟨ht, by simp, by simp⟩ hc hf)
    fun _ hwf => hwf.updateChain hc hf

theorem Tables.WF.dropChain {ts : Tables} (h : ts.WF) {table chain : Bytes} (ht : IsToken table) :
    Tables.WF (dropChain ts table chain) :=
  h.upsert (u := ⟨table, _, _⟩) ⟨rfl, fun _ he => he⟩ ⟨ht, by simp, by simp⟩ fun t hwf =>
    ⟨hwf.name, hwf.nodup.sublist (List.eraseP_sublist.map _),
      fun c hc => hwf.chains c (List.mem_of_mem_eraseP hc)⟩

/-- In well-formed tables `dropChain` removes one chain of one table. -/
theorem chainOf_dropChain {ts : Tables} (h : ts.WF) (table chain table' chain' : Bytes) :
    chainOf (dropChain ts table chain) table' chain' =
      if table' = table ∧ chain' = chain then none else chainOf ts table' chain' := by
  have hk : Upsert.Keyed TableRules.name ⟨table, ⟨table, []⟩,
      fun t => { t with chains := t.chains.eraseP fun c => c.name = chain }⟩ :=
    ⟨rfl, fun _ he => he⟩
  unfold chainOf dropChain
  by_cases ht : table' = table
  · subst ht
    rw [Upsert.find?_upsert_self hk]
    cases hf : ts.find? fun t => t.name = table' with
    | none => simp
    | some t =>
      have hnd := (h.tables t (List.mem_of_find?_eq_some hf)).nodup
      simp only [Option.map_some, Option.getD_some, Option.bind_some, true_and]
      generalize t.chains = cs at hnd
      -- only the first chain of the name goes, and there is no second one
      induction cs with
      | nil => simp
      | cons c cs ih =>
        simp only [List.map_cons, List.nodup_cons] at hnd
        by_cases hc : c.name = chain
        · rw [List.eraseP_cons_of_pos (by simpa using hc)]
          by_cases hcc : chain' = chain
          · rw [if_pos hcc, Option.map_eq_none_iff, List.find?_eq_none]
            intro x hx hname
            have hname := of_decide_eq_true hname
            exact hnd.1 (List.mem_map.mpr ⟨x, hx, by rw [hname, hcc, hc]⟩)
          · have : ¬ c.name = chain' := fun e => hcc (e.symm.trans hc)
            rw [if_neg hcc, List.find?_cons_of_neg (by simpa using this)]
        · rw [List.eraseP_cons_of_neg (by simpa using hc)]
          by_cases hcc : c.name = chain'
          · have : ¬ chain' = chain := fun e => hc (hcc.trans e)
            simp [hcc, this]
          · rw [List.find?_cons_of_neg (by simpa using hcc), ih hnd.2,
              List.find?_cons_of_neg (by simpa using hcc)]
  · rw [Upsert.find?_upsert_ne hk ht, if_neg (fun hh => ht hh.1)]

end MagiTrickle.Iptables
