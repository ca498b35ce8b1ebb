import MagiTrickle.Iptables.Settle

/-!
# Commit reaches the staged state

Over the fake executable a commit does to every chain what its staging asks for
(`commit_fake`), whatever was staged before and whatever the tables hold. The
engine's staged state is described by its history of calls: `engineOf` runs the
calls, `lastStaged` reads off the history what was last asked for a rule.
-/

namespace MagiTrickle.Iptables

open MagiTrickle.Lib

/-! ## Well-formed engines -/

structure TableReg.WF (t : TableReg) : Prop where
  name : IsToken t.name
  nodup : (t.chains.map ChainReg.name).Nodup
  chains : ∀ c ∈ t.chains, IsToken c.name ∧ c.chain.Clean

structure Ipt.WF (ipt : Ipt) : Prop where
  nodup : (ipt.tables.map TableReg.name).Nodup
  tables : ∀ t ∈ ipt.tables, t.WF

theorem Ipt.WF.iptNew : iptNew.WF := ⟨List.nodup_nil, fun _ h => absurd h List.not_mem_nil⟩

section Register

variable {table chain : Bytes} {new : Chain}

theorem keyed_chainReg (chain : Bytes) (new : Chain) :
    Upsert.Keyed ChainReg.name ⟨chain, ⟨chain, new⟩, fun c => { c with chain := new }⟩ :=
  ⟨rfl, fun _ he => he⟩

theorem TableReg.WF.put {t : TableReg} (h : t.WF) (hc : IsToken chain) (hnew : new.Clean) :
    TableReg.WF { t with chains := putChain t.chains chain new } where
  name := h.name
  nodup := Upsert.nodup_upsert (keyed_chainReg chain new) h.nodup
  chains c hmem := by
    rcases Upsert.mem_upsert (u := ⟨chain, _, _⟩) hmem with hmem | ⟨c', hmem', -, rfl⟩ | rfl
    · exact h.chains c hmem
    · exact ⟨(h.chains c' hmem').1, hnew⟩
    · exact ⟨hc, hnew⟩

theorem keyed_tableReg (table chain : Bytes) (new : Chain) :
    Upsert.Keyed TableReg.name ⟨table, ⟨table, putChain [] chain new⟩,
      fun t => { t with chains := putChain t.chains chain new }⟩ :=
  ⟨rfl, fun _ he => he⟩

theorem Ipt.WF.registerChain {ipt : Ipt} (h : ipt.WF) (ht : IsToken table) (hc : IsToken chain)
    (hnew : new.Clean) : (registerChain ipt table chain new).WF where
  nodup := Upsert.nodup_upsert (keyed_tableReg table chain new) h.nodup
  tables t hmem := by
    rcases Upsert.mem_upsert (u := ⟨table, _, _⟩) hmem with hmem | ⟨t', hmem', -, rfl⟩ | rfl
    · exact h.tables t hmem
    · exact (h.tables t' hmem').put hc hnew
    · exact TableReg.WF.put (t := ⟨table, []⟩) ⟨ht, List.nodup_nil, by simp⟩ hc hnew

theorem find?_putChain (cs : List ChainReg) (chain : Bytes) (new : Chain) (c : Bytes) :
    ((putChain cs chain new).find? fun x => x.name = c).map ChainReg.chain =
      if c = chain then some new else (cs.find? fun x => x.name = c).map ChainReg.chain := by
  unfold putChain
  by_cases hc : c = chain
  · subst hc
    rw [if_pos rfl, Upsert.find?_upsert_self (keyed_chainReg c new)]
    cases cs.find? fun x => x.name = c <;> rfl
  · rw [if_neg hc, Upsert.find?_upsert_ne (keyed_chainReg chain new) hc]

theorem findChain_registerChain (ipt : Ipt) (table chain : Bytes) (new : Chain) (t c : Bytes) :
    findChain (registerChain ipt table chain new) t c =
      if t = table ∧ c = chain then some new else findChain ipt t c := by
  unfold findChain Iptables.registerChain
  by_cases ht : t = table
  · subst ht
    rw [Upsert.find?_upsert_self (keyed_tableReg t chain new)]
    cases ipt.tables.find? fun x => x.name = t with
    | none => simpa using find?_putChain [] chain new c
    | some t' => simpa using find?_putChain t'.chains chain new c
  · rw [Upsert.find?_upsert_ne (keyed_tableReg table chain new) ht, if_neg (fun hh => ht hh.1)]

theorem Ipt.WF.findChain {ipt : Ipt} (h : ipt.WF) {t c : Bytes} {ch : Chain}
    (hf : findChain ipt t c = some ch) : IsToken t ∧ IsToken c ∧ ch.Clean := by
  obtain ⟨tr, ht, hf⟩ := Option.bind_eq_some_iff.mp hf
  obtain ⟨cr, hc, rfl⟩ := Option.map_eq_some_iff.mp hf
  have htwf := h.tables tr (List.mem_of_find?_eq_some ht)
  obtain rfl : tr.name = t := by simpa using List.find?_some ht
  obtain rfl : cr.name = c := by simpa using List.find?_some hc
  exact ⟨htwf.name, htwf.chains cr (List.mem_of_find?_eq_some hc)⟩

end Register

/-! ## The transcript on one chain -/

/-- The operations of the transcript on a chain that is `existing` in the kernel. -/
def Ipt.script (ipt : Ipt) (t c : Bytes) (existing : Option (List Rule)) : List Op :=
  match findChain ipt t c with
  | none => []
  | some ch => ch.script c existing

section Script

variable {cur : Tables} {t : TableReg}

theorem mem_compileTable {x : Compiled} (hx : x ∈ compileTable cur t) :
    ∃ c ∈ t.chains, x.name = c.name ∧ x.cmds = (c.chain.compile c.name (chainOf cur t.name c.name)).1 ∧
      x.cmds ≠ [] := by
  obtain ⟨c, hc, hx⟩ := List.mem_filterMap.mp hx
  simp only at hx
  split at hx
  · cases hx
  · next hne =>
    cases hx
    exact ⟨c, hc, rfl, rfl, hne⟩

theorem named_compileTable {x : Compiled} (hx : x ∈ compileTable cur t) : x.Named := by
  obtain ⟨c, -, hname, hcmds, -⟩ := mem_compileTable hx
  intro cmd hcmd
  rw [hname]
  exact chain_of_mem_compile (hcmds ▸ hcmd)

theorem nodup_compileTable (h : t.WF) : ((compileTable cur t).map Compiled.name).Nodup := by
  have hsub : ((compileTable cur t).map Compiled.name).Sublist (t.chains.map ChainReg.name) := by
    rw [compileTable]
    induction t.chains with
    | nil => simp
    | cons c cs ih =>
      rw [List.filterMap_cons]
      split
      · exact ih.cons _
      · next x hx =>
        simp only at hx
        split at hx
        · cases hx
        · cases hx
          exact ih.cons_cons _
  exact h.nodup.sublist hsub

theorem mem_compileTable_of {c : ChainReg} (hc : c ∈ t.chains)
    (hne : (c.chain.compile c.name (chainOf cur t.name c.name)).1 ≠ []) :
    (⟨c.name, (c.chain.compile c.name (chainOf cur t.name c.name)).1,
      (c.chain.compile c.name (chainOf cur t.name c.name)).2⟩ : Compiled) ∈ compileTable cur t :=
  List.mem_filterMap.mpr ⟨c, hc, if_neg hne⟩

theorem opsOf_block (cs : List Compiled) (tname : Bytes) (n : Bytes) :
    Block.opsOf ⟨tname, cs.flatMap (fun c => [(c.name, .declare)]) ++
        (tableCommands cs).map fun cmd => (cmd.chain, cmd.op)⟩ n =
      ((cs.filter fun c => c.name = n).map fun _ => .declare) ++
        ((tableCommands cs).filter fun cmd => cmd.chain = n).map Command.op := by
  rw [Block.opsOf, List.filter_append, List.map_append, List.filter_map, List.map_map]
  congr 1
  induction cs with
  | nil => rfl
  | cons c cs ih =>
    rw [List.flatMap_cons, List.filter_append, List.map_append, ih, List.filter_cons]
    by_cases h : c.name = n <;> simp [h]

theorem opsOf_block_of_not_mem {cs : List Compiled} (hnamed : ∀ c ∈ cs, c.Named) {n : Bytes}
    (hn : ∀ c ∈ cs, c.name ≠ n) (tname : Bytes) :
    Block.opsOf ⟨tname, cs.flatMap (fun c => [(c.name, .declare)]) ++
        (tableCommands cs).map fun cmd => (cmd.chain, cmd.op)⟩ n = [] := by
  have hdecl : cs.filter (fun x => x.name = n) = [] := by
    rw [List.filter_eq_nil_iff]
    intro x hx
    simpa using hn x hx
  have hcmds : (tableCommands cs).filter (fun cmd => cmd.chain = n) = [] := by
    rw [List.filter_eq_nil_iff]
    intro cmd hcmd
    obtain ⟨x, hx, hcmd⟩ := mem_tableCommands hcmd
    simpa [hnamed x hx cmd hcmd] using hn x hx
  rw [opsOf_block, hdecl, hcmds]
  rfl

theorem opsOf_transcriptBlock (h : t.WF) {b : Block} (hb : transcriptBlock cur t = some b)
    {c : ChainReg} (hc : c ∈ t.chains) :
    b.opsOf c.name = c.chain.script c.name (chainOf cur t.name c.name) := by
  simp only [transcriptBlock] at hb
  split at hb
  · cases hb
  cases hb
  by_cases hne : (c.chain.compile c.name (chainOf cur t.name c.name)).1 = []
  · rw [script_eq_nil hne]
    refine opsOf_block_of_not_mem (fun x hx => named_compileTable hx) ?_ _
    intro x hx hname
    obtain ⟨c', hc', hname', hcmds, hxne⟩ := mem_compileTable hx
    have : c' = c := List.inj_on_of_nodup_map h.nodup hc' hc (hname'.symm.trans hname)
    subst this
    exact hxne (hcmds.trans hne)
  · have hmem := mem_compileTable_of hc hne
    have hnd : ((compileTable cur t).map Compiled.name).Nodup := nodup_compileTable h
    have hdecl := Keyed.filter_flatMap_of_mem (f := fun x => [x])
      (p := fun x => decide (x.name = c.name)) hnd hmem (by simp)
    have hcmds := filter_tableCommands hnd (fun x hx => named_compileTable hx) hmem hne
    simp only [List.flatMap_singleton', List.filter_cons_of_pos, decide_true, List.filter_nil]
      at hdecl
    rw [opsOf_block, Chain.script, hdecl, hcmds, if_neg hne]
    rfl

theorem opsOf_transcriptBlock_of_not_mem {b : Block} (hb : transcriptBlock cur t = some b)
    {n : Bytes} (hn : ∀ c ∈ t.chains, c.name ≠ n) : b.opsOf n = [] := by
  simp only [transcriptBlock] at hb
  split at hb
  · cases hb
  cases hb
  refine opsOf_block_of_not_mem (fun x hx => named_compileTable hx) ?_ _
  intro x hx
  obtain ⟨c, hc, hname, -⟩ := mem_compileTable hx
  rw [hname]
  exact hn c hc

theorem transcriptBlock_eq_none (h : transcriptBlock cur t = none) {c : ChainReg}
    (hc : c ∈ t.chains) : (c.chain.compile c.name (chainOf cur t.name c.name)).1 = [] := by
  by_contra hne
  have hmem := mem_compileTable_of hc hne
  simp only [transcriptBlock] at h
  split at h
  · next hnil =>
    rw [hnil] at hmem
    exact absurd hmem List.not_mem_nil
  · cases h

theorem table_of_transcriptBlock {b : Block} (h : transcriptBlock cur t = some b) :
    b.table = t.name := by
  simp only [transcriptBlock] at h
  split at h
  · cases h
  · cases h
    rfl

theorem clean_transcriptBlock (ht : t.WF) {b : Block} (h : transcriptBlock cur t = some b) :
    b.Clean := by
  simp only [transcriptBlock] at h
  split at h
  · cases h
  cases h
  intro cmd hcmd
  rcases List.mem_cons.mp hcmd with rfl | hcmd
  · exact ht.name
  obtain ⟨o, ho, rfl⟩ := List.mem_map.mp hcmd
  refine ⟨ht.name, ?_⟩
  rcases List.mem_append.mp ho with ho | ho
  · obtain ⟨x, hx, ho⟩ := List.mem_flatMap.mp ho
    obtain rfl := List.mem_singleton.mp ho
    obtain ⟨c, hc, hname, -⟩ := mem_compileTable hx
    exact ⟨hname ▸ (ht.chains c hc).1, trivial⟩
  · obtain ⟨cmd, hmem, rfl⟩ := List.mem_map.mp ho
    obtain ⟨x, hx, hmem⟩ := mem_tableCommands hmem
    obtain ⟨c, hc, -, hcmds, -⟩ := mem_compileTable hx
    rw [hcmds] at hmem
    show IsToken cmd.chain ∧ cmd.op.Clean
    rw [chain_of_mem_compile hmem]
    exact ⟨(ht.chains c hc).1, clean_of_mem_compile (ht.chains c hc).2 hmem⟩

end Script

section Commit

variable {ipt : Ipt} {cur ts : Tables}

theorem nodup_transcriptBlocks (h : ipt.WF) (cur : Tables) :
    ((transcriptBlocks ipt cur).map Block.table).Nodup := by
  have hsub : ((transcriptBlocks ipt cur).map Block.table).Sublist
      (ipt.tables.map TableReg.name) := by
    rw [transcriptBlocks]
    induction ipt.tables with
    | nil => simp
    | cons t ts ih =>
      rw [List.filterMap_cons]
      split
      · exact ih.cons _
      · next b hb =>
        rw [List.map_cons, List.map_cons, table_of_transcriptBlock hb]
        exact ih.cons_cons _
  exact h.nodup.sublist hsub

/-- The operations of the transcript on a chain are those of its staging. -/
theorem opsAt_transcriptBlocks (h : ipt.WF) (cur : Tables) (t c : Bytes) :
    opsAt ((transcriptBlocks ipt cur).flatMap Block.cmds) t c =
      ipt.script t c (chainOf cur t c) := by
  unfold Ipt.script findChain
  cases ht : ipt.tables.find? fun x => x.name = t with
  | none =>
    refine opsAt_of_not_mem (fun b hb => ?_) c
    obtain ⟨x, hx, hb⟩ := List.mem_filterMap.mp hb
    rw [table_of_transcriptBlock hb]
    simpa using List.find?_eq_none.mp ht x hx
  | some tr =>
    have hmem := List.mem_of_find?_eq_some ht
    have hwf := h.tables tr hmem
    obtain rfl : tr.name = t := by simpa using List.find?_some ht
    rw [Option.bind_some]
    cases hb : transcriptBlock cur tr with
    | none =>
      -- no block for the table: none of its chains has commands
      rw [opsAt_of_not_mem]
      · cases hc : tr.chains.find? fun x => x.name = c with
        | none => rfl
        | some cr =>
          obtain rfl : cr.name = c := by simpa using List.find?_some hc
          simp only [Option.map_some]
          rw [script_eq_nil (transcriptBlock_eq_none hb (List.mem_of_find?_eq_some hc))]
      · intro b hb' htable
        obtain ⟨x, hx, hb'⟩ := List.mem_filterMap.mp hb'
        have : x = tr := List.inj_on_of_nodup_map h.nodup hx hmem
          ((table_of_transcriptBlock hb').symm.trans htable)
        subst this
        rw [hb] at hb'
        cases hb'
    | some b =>
      have hbmem : b ∈ transcriptBlocks ipt cur := List.mem_filterMap.mpr ⟨tr, hmem, hb⟩
      rw [← table_of_transcriptBlock hb, opsAt_of_mem (nodup_transcriptBlocks h cur) hbmem,
        table_of_transcriptBlock hb]
      cases hc : tr.chains.find? fun x => x.name = c with
      | none =>
        rw [opsOf_transcriptBlock_of_not_mem hb fun x hx => by
          simpa using List.find?_eq_none.mp hc x hx]
        rfl
      | some cr =>
        obtain rfl : cr.name = c := by simpa using List.find?_some hc
        rw [opsOf_transcriptBlock hwf hb (List.mem_of_find?_eq_some hc)]
        rfl

/-- The transcript does to a chain what the commands of its staging do. -/
theorem cell_transcriptBlocks (h : ipt.WF) (cur : Tables) (t c : Bytes) (v : Option (List Rule)) :
    machine.cell ((transcriptBlocks ipt cur).flatMap Block.cmds) (t, c) v =
      runOps (ipt.script t c (chainOf cur t c)) v := by
  rw [cell_eq_runOps, opsAt_transcriptBlocks h]

theorem clean_transcriptBlocks (h : ipt.WF) (cur : Tables) :
    ∀ b ∈ transcriptBlocks ipt cur, b.Clean := by
  intro b hb
  obtain ⟨t, ht, hb⟩ := List.mem_filterMap.mp hb
  exact clean_transcriptBlock (h.tables t ht) hb

/-- What a commit makes of a chain: what its staging asks for, or nothing. -/
def Ipt.Reached (ipt : Ipt) (t c : Bytes) (v v' : Option (List Rule)) : Prop :=
  match findChain ipt t c with
  | none => v' = v
  | some ch => ch.Reached v v'

theorem Tables.WF.chainOf (h : ts.WF) {t c : Bytes} :
    ∀ r ∈ (chainOf ts t c).getD [], ∀ p ∈ r, IsToken p := by
  intro r hr
  cases hv : Iptables.chainOf ts t c with
  | none =>
    rw [hv] at hr
    exact absurd hr List.not_mem_nil
  | some l =>
    rw [hv] at hr
    obtain ⟨tr, ht, hl⟩ := Option.bind_eq_some_iff.mp hv
    obtain ⟨cr, hc, rfl⟩ := Option.map_eq_some_iff.mp hl
    exact ((h.tables tr (List.mem_of_find?_eq_some ht)).chains cr
      (List.mem_of_find?_eq_some hc)).rules r hr

theorem script_ipt_reaches (h : ipt.WF) (t c : Bytes) {v : Option (List Rule)}
    (hv : ∀ r ∈ v.getD [], ∀ p ∈ r, IsToken p) :
    ∃ v', runOps (ipt.script t c v) v = .ok v' ∧ ipt.Reached t c v v' := by
  unfold Ipt.script Ipt.Reached
  cases hf : findChain ipt t c with
  | none => exact ⟨v, rfl, rfl⟩
  | some ch => exact script_reaches (h.findChain hf).2.2 c hv

theorem reached_of_script (h : ipt.WF) {t c : Bytes} {v v' : Option (List Rule)}
    (hv : ∀ r ∈ v.getD [], ∀ p ∈ r, IsToken p) (hrun : runOps (ipt.script t c v) v = .ok v') :
    ipt.Reached t c v v' := by
  obtain ⟨w, hw, hr⟩ := script_ipt_reaches h t c hv
  rw [hrun] at hw
  cases hw
  exact hr

/-- The fake executable carries out the transcript of every staging. -/
theorem fakeRestore_transcript (h : ipt.WF) (hts : ts.WF)
    (hcur : ∀ t c, chainOf cur t c = chainOf ts t c) :
    ∃ ts', fakeRestore ts (transcript ipt cur) = .ok ts' ∧
      ((transcriptBlocks ipt cur).flatMap Block.cmds).foldlM execCmd ts = .ok ts' ∧ ts'.WF ∧
      ∀ t c, runOps (ipt.script t c (chainOf ts t c)) (chainOf ts t c) = .ok (chainOf ts' t c) := by
  have hcell : ∀ k : Bytes × Bytes, machine.cell
      ((transcriptBlocks ipt cur).flatMap Block.cmds) k (machine.view ts k) =
        runOps (ipt.script k.1 k.2 (chainOf ts k.1 k.2)) (chainOf ts k.1 k.2) := by
    intro k
    rw [cell_transcriptBlocks h, hcur]
    rfl
  have hreach : ∀ k : Bytes × Bytes, ∃ v', machine.cell
      ((transcriptBlocks ipt cur).flatMap Block.cmds) k (machine.view ts k) = .ok v' := by
    intro k
    obtain ⟨v', hv', -⟩ := script_ipt_reaches h k.1 k.2 hts.chainOf
    exact ⟨v', (hcell k).trans hv'⟩
  choose g hg using hreach
  have hgood : ∀ cmd ∈ (transcriptBlocks ipt cur).flatMap Block.cmds, cmd.Clean := by
    intro cmd hcmd
    obtain ⟨b, hb, hcmd⟩ := List.mem_flatMap.mp hcmd
    exact clean_transcriptBlocks h cur b hb cmd hcmd
  obtain ⟨ts', hrun, hwf, hview⟩ := machine.run_ok _ ts hts hgood g hg
  refine ⟨ts', ?_, hrun, hwf, fun t c => ?_⟩
  · rw [transcript_eq, fakeRestore_blocks _ (clean_transcriptBlocks h cur)]
    exact hrun
  · have := hg (t, c)
    rw [← hview (t, c), hcell] at this
    exact this

theorem transcript_eq_nil {ipt : Ipt} {cur : Tables}
    (h : ∀ t ∈ ipt.tables, ∀ c ∈ t.chains,
      (c.chain.compile c.name (chainOf cur t.name c.name)).1 = []) : transcript ipt cur = [] := by
  rw [transcript, List.flatMap_eq_nil_iff]
  intro t ht
  have hnil : compileTable cur t = [] := by
    rw [List.eq_nil_iff_forall_not_mem]
    intro x hx
    obtain ⟨c, hc, -, hcmds, hne⟩ := mem_compileTable hx
    exact hne (hcmds.trans (h t ht c hc))
  simp [tableTranscript, hnil]

theorem findChain_of_mem (h : ipt.WF) {t : TableReg} (ht : t ∈ ipt.tables) {c : ChainReg}
    (hc : c ∈ t.chains) : findChain ipt t.name c.name = some c.chain := by
  rw [findChain, Upsert.find?_of_nodup h.nodup ht, Option.bind_some,
    Upsert.find?_of_nodup (h.tables t ht).nodup hc]
  rfl

/-- A commit after the listing has been read. -/
theorem commit_of_listing {σ : Type} {exe : Executable σ} {s : σ} {data : Bytes} {cur : Tables}
    (hsave : exe.save s = .ok data) (hcur : getCurrentRules data = .ok cur) (raised : Bool) :
    commit exe (false, raised) ipt s =
      if transcript ipt cur = [] then .ok (s, [])
      else if raised then .error .canceled
      else (exe.restore s (transcript ipt cur)).map fun s' => (s', transcript ipt cur) := by
  simp only [commit, hsave, hcur, bind, Except.bind, pure, Except.pure]
  by_cases hnil : transcript ipt cur = []
  · simp [hnil]
  · cases raised with
    | true => simp [hnil, throw, throwThe, MonadExceptOf.throw]
    | false =>
      simp only [hnil, if_false, Bool.false_eq_true]
      cases exe.restore s (transcript ipt cur) <;> rfl

/-- A commit that is not canceled gives the executable the transcript, which runs. -/
theorem commit_fake_run (h : ipt.WF) (hts : ts.WF) :
    ∃ cur ts', (∀ t c, chainOf cur t c = chainOf ts t c) ∧
      commit fake (false, false) ipt ts = .ok (ts', transcript ipt cur) ∧
      ((transcriptBlocks ipt cur).flatMap Block.cmds).foldlM execCmd ts = .ok ts' ∧ ts'.WF ∧
      ∀ t c, runOps (ipt.script t c (chainOf ts t c)) (chainOf ts t c) = .ok (chainOf ts' t c) := by
  obtain ⟨cur, hsave, -, hcur⟩ := getCurrentRules_fakeSave hts
  obtain ⟨ts', hrestore, hrun, hwf, hscript⟩ := fakeRestore_transcript h hts hcur
  refine ⟨cur, ts', hcur, ?_, hrun, hwf, hscript⟩
  rw [commit_of_listing (σ := Tables) rfl hsave]
  by_cases hnil : transcript ipt cur = []
  · rw [if_pos hnil, hnil]
    rw [hnil] at hrestore
    cases hrestore
    rfl
  · rw [if_neg hnil, if_neg (by decide)]
    show (fakeRestore ts (transcript ipt cur)).map _ = _
    rw [hrestore]
    rfl

/-- A commit that is not canceled succeeds and does to every chain what its staging asks for. -/
theorem commit_fake (h : ipt.WF) (hts : ts.WF) :
    ∃ ts' out, commit fake (false, false) ipt ts = .ok (ts', out) ∧ ts'.WF ∧
      ∀ t c, runOps (ipt.script t c (chainOf ts t c)) (chainOf ts t c) = .ok (chainOf ts' t c) := by
  obtain ⟨cur, ts', -, hcommit, -, hwf, hscript⟩ := commit_fake_run h hts
  exact ⟨ts', _, hcommit, hwf, hscript⟩

/-- Where the staged state is reached a commit gives the executable nothing to do. -/
theorem commit_of_reached (h : ipt.WF) (hts : ts.WF)
    (hr : ∀ t c, ∃ v, ipt.Reached t c v (chainOf ts t c)) :
    commit fake (false, false) ipt ts = .ok (ts, []) := by
  obtain ⟨cur, hsave, -, hcur⟩ := getCurrentRules_fakeSave hts
  have hnil : transcript ipt cur = [] := by
    apply transcript_eq_nil
    intro t ht c hc
    obtain ⟨v, hv⟩ := hr t.name c.name
    rw [Ipt.Reached, findChain_of_mem h ht hc] at hv
    rw [hcur]
    exact compile_of_reached ((h.tables t ht).chains c hc).2 c.name hts.chainOf hv
  rw [commit_of_listing (σ := Tables) rfl hsave, if_pos hnil]

/-- The cancel flag can only stop a commit. -/
theorem commit_raised (hts : ts.WF) {raised : Bool × Bool} {x : Tables × Bytes}
    (h : commit fake raised ipt ts = .ok x) : commit fake (false, false) ipt ts = .ok x := by
  obtain ⟨cur, hsave, -, -⟩ := getCurrentRules_fakeSave hts
  obtain ⟨r₁, r₂⟩ := raised
  cases r₁ with
  | true => cases h
  | false =>
    rw [commit_of_listing (σ := Tables) rfl hsave] at h ⊢
    split at h
    · next hnil => rw [if_pos hnil, ← h]
    · next hnil =>
      rw [if_neg hnil]
      cases r₂ with
      | true => cases h
      | false => exact h

end Commit

end MagiTrickle.Iptables
