import MagiTrickle.Iptables.Listing

/-!
# The listing read back

`getCurrentRules_fakeSave` reads a listing chain by chain. Here it is read as a
list: tables, chains and rules come back in the order they were printed, a chain
without rules as a chain without rules (`getCurrentRules_exact`).
-/

namespace MagiTrickle.Iptables

open MagiTrickle.Lib

/-- Contents whose names are told apart. A table's name fits a line, and chain names and the parts
of rules are words. -/
structure Printable (ts : Tables) : Prop where
  nodup : (ts.map TableRules.name).Nodup
  line : ∀ t ∈ ts, (10 : UInt8) ∉ t.name
  chains : ∀ t ∈ ts, (t.chains.map ChainRules.name).Nodup
  words : ∀ t ∈ ts, ∀ c ∈ t.chains, c.WF

instance (ts : Tables) : Decidable (Printable ts) :=
  decidable_of_iff ((ts.map TableRules.name).Nodup ∧ (∀ t ∈ ts, (10 : UInt8) ∉ t.name) ∧
      (∀ t ∈ ts, (t.chains.map ChainRules.name).Nodup) ∧ ∀ t ∈ ts, ∀ c ∈ t.chains, c.WF)
    ⟨fun h => ⟨h.1, h.2.1, h.2.2.1, h.2.2.2⟩, fun h => ⟨h.nodup, h.line, h.chains, h.words⟩⟩

def printed (ts : Tables) : Tables :=
  (ts.insertionSort fun a b => strLe a.name b.name).map fun t => ⟨t.name, sortedChains t⟩

/-! ## Commands at the end of the contents -/

section Last

variable {α κ : Type} [DecidableEq κ] {key : α → κ} {k : κ} {new : α} {upd : α → α}

theorem upsert_of_not_mem {l : List α} (h : k ∉ l.map key) : upsert key k new upd l = l ++ [new] := by
  induction l with
  | nil => rfl
  | cons e l ih =>
    rw [List.map_cons, List.mem_cons, not_or] at h
    rw [upsert, if_neg (Ne.symm h.1), ih h.2]
    rfl

theorem upsert_middle {l l' : List α} {e : α} (h : k ∉ l.map key) (he : key e = k) :
    upsert key k new upd (l ++ e :: l') = l ++ upd e :: l' := by
  induction l with
  | nil => rw [List.nil_append, upsert, if_pos he]; rfl
  | cons x l ih =>
    rw [List.map_cons, List.mem_cons, not_or] at h
    rw [List.cons_append, upsert, if_neg (Ne.symm h.1), ih h.2]
    rfl

end Last

section Blocks

variable {done : Tables} {t : Bytes}

theorem setChain_last (ht : t ∉ done.map TableRules.name) (cs : List ChainRules) (c : Bytes)
    (f : List Rule → List Rule) :
    setChain (done ++ [⟨t, cs⟩]) t c f = done ++ [⟨t, updateChain cs c f⟩] :=
  upsert_middle ht rfl

theorem exec_declares (ht : t ∉ done.map TableRules.name) (cs : List ChainRules)
    {before : List ChainRules} (hnd : ((before ++ cs).map ChainRules.name).Nodup) :
    ((cs.flatMap fun c => [(c.name, Op.declare)]).map fun o => Cmd.on t o.1 o.2).foldlM execCmd
        (done ++ [⟨t, before⟩]) =
      .ok (done ++ [⟨t, before ++ cs.map fun c => ⟨c.name, []⟩⟩]) := by
  induction cs generalizing before with
  | nil => simp [pure, Except.pure]
  | cons c cs ih =>
    have hnew : c.name ∉ before.map ChainRules.name := by
      rw [List.map_append, List.map_cons] at hnd
      exact fun h => (List.nodup_append.mp hnd).2.2 _ h _ (List.mem_cons_self ..) rfl
    have hupd : updateChain before c.name id = before ++ [(⟨c.name, []⟩ : ChainRules)] :=
      upsert_of_not_mem hnew
    have hexec : execCmd (done ++ [⟨t, before⟩]) (.on t c.name .declare) =
        .ok (done ++ [⟨t, before ++ [(⟨c.name, []⟩ : ChainRules)]⟩]) := by
      show Except.ok (setChain _ t c.name id) = _
      rw [setChain_last ht, hupd]
    have hnd' : (((before ++ [(⟨c.name, []⟩ : ChainRules)]) ++ cs).map ChainRules.name).Nodup := by
      simpa using hnd
    rw [List.flatMap_cons, List.singleton_append, List.map_cons, List.foldlM_cons, hexec]
    have hrest := ih hnd'
    rw [List.append_assoc] at hrest
    exact hrest

theorem exec_rules (ht : t ∉ done.map TableRules.name) {before after : List ChainRules} {c : Bytes}
    (hc : c ∉ before.map ChainRules.name) (rules : List Rule) (l : List Rule) :
    ((rules.map fun r => (c, Op.append r)).map fun o => Cmd.on t o.1 o.2).foldlM execCmd
        (done ++ [⟨t, before ++ ⟨c, l⟩ :: after⟩]) =
      .ok (done ++ [⟨t, before ++ ⟨c, l ++ rules⟩ :: after⟩]) := by
  induction rules generalizing l with
  | nil => simp [pure, Except.pure]
  | cons r rules ih =>
    have hupd : updateChain (before ++ ⟨c, l⟩ :: after) c (· ++ [r]) =
        before ++ ⟨c, l ++ [r]⟩ :: after := upsert_middle hc rfl
    have hexec : execCmd (done ++ [⟨t, before ++ ⟨c, l⟩ :: after⟩]) (.on t c (.append r)) =
        .ok (done ++ [⟨t, before ++ ⟨c, l ++ [r]⟩ :: after⟩]) := by
      show Except.ok (setChain _ t c (· ++ [r])) = _
      rw [setChain_last ht, hupd]
    rw [List.map_cons, List.map_cons, List.foldlM_cons, hexec]
    have hrest := ih (l ++ [r])
    rw [List.append_assoc] at hrest
    exact hrest

theorem exec_chains (ht : t ∉ done.map TableRules.name) (cs : List ChainRules)
    {before : List ChainRules} (hnd : ((before ++ cs).map ChainRules.name).Nodup) :
    ((cs.flatMap fun c => c.rules.map fun r => (c.name, Op.append r)).map
        fun o => Cmd.on t o.1 o.2).foldlM execCmd
        (done ++ [⟨t, before ++ cs.map fun c => ⟨c.name, []⟩⟩]) =
      .ok (done ++ [⟨t, before ++ cs⟩]) := by
  induction cs generalizing before with
  | nil => rfl
  | cons c cs ih =>
    have hnew : c.name ∉ before.map ChainRules.name := by
      rw [List.map_append, List.map_cons] at hnd
      exact fun h => (List.nodup_append.mp hnd).2.2 _ h _ (List.mem_cons_self ..) rfl
    rw [List.flatMap_cons, List.map_append, List.foldlM_append, List.map_cons,
      exec_rules ht hnew c.rules []]
    have hnd' : (((before ++ [c]) ++ cs).map ChainRules.name).Nodup := by
      rwa [List.append_assoc]
    have hrest := ih hnd'
    rw [List.append_assoc, List.append_assoc] at hrest
    exact hrest

theorem listing_block {tr : TableRules} (ht : tr.name ∉ done.map TableRules.name)
    (hnd : (tr.chains.map ChainRules.name).Nodup) (hwords : ∀ c ∈ tr.chains, c.WF) :
    (saveBlock tr).lines.foldlM listingLine ⟨done, none⟩ =
      .ok ⟨done ++ [⟨tr.name, sortedChains tr⟩], none⟩ := by
  have hmem : ∀ c ∈ sortedChains tr, c.WF := fun c hc =>
    hwords c ((List.mem_insertionSort ..).mp hc)
  have hnd' : ((sortedChains tr).map ChainRules.name).Nodup :=
    ((List.perm_insertionSort ..).map _).nodup_iff.mpr hnd
  have hos : ∀ o ∈ (saveBlock tr).ops, IsToken o.1 ∧ o.2.Clean ∧ o.2.Listed := by
    intro o ho
    refine ⟨?_, ?_, listed_saveBlock tr o ho⟩
    all_goals
      rcases List.mem_append.mp ho with ho | ho <;> obtain ⟨c, hc, ho⟩ := List.mem_flatMap.mp ho
    · obtain rfl := List.mem_singleton.mp ho
      exact (hmem c hc).name
    · obtain ⟨r, -, rfl⟩ := List.mem_map.mp ho
      exact (hmem c hc).name
    · obtain rfl := List.mem_singleton.mp ho
      trivial
    · obtain ⟨r, hr, rfl⟩ := List.mem_map.mp ho
      exact (hmem c hc).rules r hr
  have hopen : openTable done tr.name = done ++ [(⟨tr.name, []⟩ : TableRules)] :=
    upsert_of_not_mem ht
  have hrun : ((saveBlock tr).ops.map fun o => Cmd.on tr.name o.1 o.2).foldlM execCmd
      (done ++ [⟨tr.name, []⟩]) = .ok (done ++ [⟨tr.name, sortedChains tr⟩]) := by
    have hdeclares := @exec_declares _ _ ht (sortedChains tr) [] hnd'
    have hchains := @exec_chains _ _ ht (sortedChains tr) [] hnd'
    rw [List.nil_append] at hdeclares hchains
    rw [saveBlock, List.map_append, List.foldlM_append, hdeclares]
    exact hchains
  rw [Block.lines, List.cons_append, List.foldlM_cons]
  show List.foldlM listingLine ⟨openTable done tr.name, some tr.name⟩ _ = _
  rw [List.foldlM_append, hopen, reads_listingLine.ops tr.name _ hos, hrun]
  rfl

theorem listing_blocks (us : List TableRules) {done : Tables}
    (hnd : ((done ++ us).map TableRules.name).Nodup)
    (hchains : ∀ t ∈ us, (t.chains.map ChainRules.name).Nodup)
    (hwords : ∀ t ∈ us, ∀ c ∈ t.chains, c.WF) :
    ((us.map saveBlock).flatMap Block.lines).foldlM listingLine ⟨done, none⟩ =
      .ok ⟨done ++ us.map fun t => ⟨t.name, sortedChains t⟩, none⟩ := by
  induction us generalizing done with
  | nil => simp [pure, Except.pure]
  | cons u us ih =>
    have hnew : u.name ∉ done.map TableRules.name := by
      rw [List.map_append, List.map_cons] at hnd
      exact fun h => (List.nodup_append.mp hnd).2.2 _ h _ (List.mem_cons_self ..) rfl
    have hnd' : (((done ++ [(⟨u.name, sortedChains u⟩ : TableRules)]) ++ us).map
        TableRules.name).Nodup := by
      simpa using hnd
    rw [List.map_cons, List.flatMap_cons, List.foldlM_append,
      listing_block hnew (hchains u (List.mem_cons_self ..)) (hwords u (List.mem_cons_self ..))]
    have hrest := ih hnd' (fun t ht => hchains t (List.mem_cons_of_mem _ ht))
      fun t ht => hwords t (List.mem_cons_of_mem _ ht)
    rw [List.append_assoc] at hrest
    exact hrest

theorem not_mem_saveBlock {t : TableRules} (hline : (10 : UInt8) ∉ t.name)
    (hwords : ∀ c ∈ t.chains, c.WF) : ∀ l ∈ (saveBlock t).lines, (10 : UInt8) ∉ l := by
  intro l hl
  simp only [Block.lines, List.cons_append, List.mem_cons, List.mem_append, List.mem_map,
    List.not_mem_nil, or_false] at hl
  rcases hl with rfl | ⟨o, ho, rfl⟩ | rfl
  · exact fun h => (List.mem_cons.mp h).elim (by decide) hline
  · rcases List.mem_append.mp ho with ho | ho <;> obtain ⟨c, hc, ho⟩ := List.mem_flatMap.mp ho
    · obtain rfl := List.mem_singleton.mp ho
      exact not_mem_opLine (hwords c ((List.mem_insertionSort ..).mp hc)).name trivial
    · obtain ⟨r, hr, rfl⟩ := List.mem_map.mp ho
      have hwf := hwords c ((List.mem_insertionSort ..).mp hc)
      exact not_mem_opLine hwf.name (hwf.rules r hr)
  · decide

end Blocks

/-! ## The order does not matter to a lookup -/

theorem find?_insertionSort {α : Type} {key : α → Bytes} {le : α → α → Bool} {l : List α}
    (hnd : (l.map key).Nodup) (k : Bytes) :
    (l.insertionSort fun a b => le a b).find? (fun x => key x = k) =
      l.find? fun x => key x = k := by
  have hperm := List.perm_insertionSort (fun a b => le a b) l
  have hnd' : ((l.insertionSort fun a b => le a b).map key).Nodup :=
    (hperm.map key).nodup_iff.mpr hnd
  cases h : l.find? fun x => key x = k with
  | none =>
    rw [List.find?_eq_none] at h ⊢
    exact fun x hx => h x (hperm.mem_iff.mp hx)
  | some x =>
    obtain rfl : key x = k := by simpa using List.find?_some h
    exact Upsert.find?_of_nodup hnd' (hperm.mem_iff.mpr (List.mem_of_find?_eq_some h))

theorem chainOf_printed {ts : Tables} (h : Printable ts) (t c : Bytes) :
    chainOf (printed ts) t c = chainOf ts t c := by
  unfold chainOf printed
  rw [List.find?_map]
  show Option.bind (Option.map _ (List.find? (fun x : TableRules => decide (x.name = t)) _)) _ = _
  rw [@find?_insertionSort _ TableRules.name (fun a b : TableRules => strLe a.name b.name) _
    h.nodup]
  cases ht : ts.find? fun x => x.name = t with
  | none => rfl
  | some tr =>
    rw [Option.map_some, Option.bind_some, Option.bind_some]
    show ((sortedChains tr).find? _).map _ = _
    rw [sortedChains, @find?_insertionSort _ ChainRules.name
      (fun a b : ChainRules => strLe a.name b.name) _
      (h.chains tr (List.mem_of_find?_eq_some ht))]

/-- The listing of any contents is read as these contents in the order of the listing; a lookup
finds in them what it finds in the contents, and nothing where there is nothing. -/
theorem getCurrentRules_exact (ts : Tables) (h : Printable ts) :
    getCurrentRules (fakeSave ts) = .ok (printed ts) ∧
      ∀ t c, chainOf (printed ts) t c = chainOf ts t c := by
  refine ⟨?_, chainOf_printed h⟩
  have hmem : ∀ t, t ∈ ts.insertionSort (fun a b => strLe a.name b.name) ↔ t ∈ ts := fun t =>
    List.mem_insertionSort ..
  have htext : fakeSave ts = ((saveBlocks ts).flatMap Block.lines).flatMap (· ++ [10]) := by
    rw [fakeSave_eq, List.flatMap_assoc]
    rfl
  have hlines : ∀ l ∈ (saveBlocks ts).flatMap Block.lines, (10 : UInt8) ∉ l := by
    intro l hl
    obtain ⟨b, hb, hl⟩ := List.mem_flatMap.mp hl
    obtain ⟨t, ht, rfl⟩ := List.mem_map.mp hb
    exact not_mem_saveBlock (h.line t ((hmem t).mp ht)) (h.words t ((hmem t).mp ht)) l hl
  have hnd : ((ts.insertionSort fun a b => strLe a.name b.name).map TableRules.name).Nodup :=
    ((List.perm_insertionSort ..).map _).nodup_iff.mpr h.nodup
  have hblocks := @listing_blocks (ts.insertionSort fun a b => strLe a.name b.name) []
    hnd (fun t ht => h.chains t ((hmem t).mp ht)) fun t ht => h.words t ((hmem t).mp ht)
  rw [getCurrentRules, htext, Words.splitOn_terminated _ _ hlines, List.foldlM_append]
  rw [show ((saveBlocks ts).flatMap Block.lines).foldlM listingLine ⟨[], none⟩ =
    .ok ⟨printed ts, none⟩ from hblocks]
  rfl

theorem getCurrentRules_exact_empty :
    getCurrentRules (fakeSave [⟨str "nat", [⟨str "A", []⟩, ⟨str "B", [[str "-j", str "A"], []]⟩]⟩,
        ⟨str "filter", []⟩]) =
      .ok (printed [⟨str "nat", [⟨str "A", []⟩, ⟨str "B", [[str "-j", str "A"], []]⟩]⟩,
        ⟨str "filter", []⟩]) ∧
      ∀ t c, chainOf (printed [⟨str "nat", [⟨str "A", []⟩, ⟨str "B", [[str "-j", str "A"], []]⟩]⟩,
        ⟨str "filter", []⟩]) t c =
          chainOf [⟨str "nat", [⟨str "A", []⟩, ⟨str "B", [[str "-j", str "A"], []]⟩]⟩,
            ⟨str "filter", []⟩] t c :=
  getCurrentRules_exact _ (by decide +kernel)

end MagiTrickle.Iptables
