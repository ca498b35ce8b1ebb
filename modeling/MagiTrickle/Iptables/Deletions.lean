import MagiTrickle.Iptables.Commit
import MagiTrickle.Iptables.Contents

/-!
# What comes before a chain is deleted

Chains staged for deletion have the last priority, so in the block of a table
everything else comes first (`pairwise_last`). `at_drop` says what the tables
look like when the fake executable comes to the line that deletes a chain, and
`within_transcript` that a script that works on existing chains only takes
chains away.
-/

namespace MagiTrickle.Iptables

open MagiTrickle.Lib

/-! ## The order of a block -/

/-- After the deletion of a chain only chains staged for deletion are touched in its table. -/
def Last (ipt : Ipt) (x y : Cmd) : Prop :=
  ∀ t c, x = .on t c .drop → y.key.1 = t → findChain ipt t y.key.2 = some .delete

section Last

variable {ipt : Ipt} {cur : Tables} {t : TableReg}

theorem delete_of_priority {ch : Chain} {name : Bytes} {v : Option (List Rule)}
    (h : 127 ≤ (ch.compile name v).2) : ch = .delete := by
  cases ch with
  | override rules => exact absurd h (by simp [Chain.compile])
  | patch es => exact absurd h (by simp [Chain.compile])
  | delete => rfl

theorem delete_of_drop {ch : Chain} {name : Bytes} {v : Option (List Rule)} {cmd : Command}
    (h : cmd ∈ (ch.compile name v).1) (hop : cmd.op = .drop) : ch = .delete := by
  cases ch with
  | override rules =>
    simp only [Chain.compile, overrideCompile] at h
    split at h
    · exact absurd h List.not_mem_nil
    · rcases List.mem_cons.mp h with rfl | h
      · cases hop
      · obtain ⟨r, -, rfl⟩ := List.mem_map.mp h
        cases hop
  | patch es =>
    obtain ⟨e, -, h⟩ := List.mem_flatMap.mp h
    rcases mem_patchEntryCompile h with rfl | ⟨-, rfl⟩ | ⟨-, rfl⟩ <;> cases hop
  | delete => rfl

theorem chain_of_mem_bucket (h : ipt.WF) (ht : t ∈ ipt.tables) {b : Bucket}
    (hb : b ∈ (compileTable cur t).foldl bucketAppend []) {cmd : Command} (hcmd : cmd ∈ b.2) :
    ∃ ch, findChain ipt t.name cmd.chain = some ch ∧
      cmd ∈ (ch.compile cmd.chain (chainOf cur t.name cmd.chain)).1 ∧
      (ch.compile cmd.chain (chainOf cur t.name cmd.chain)).2 = b.1 := by
  rw [snd_of_mem_buckets hb] at hcmd
  obtain ⟨x, hx, hcmd⟩ := List.mem_flatMap.mp hcmd
  obtain ⟨hx, hprio⟩ := List.mem_filter.mp hx
  have hchain : cmd.chain = x.name := named_compileTable hx cmd hcmd
  obtain ⟨c, hc, hxc⟩ := List.mem_filterMap.mp hx
  simp only at hxc
  split at hxc
  · cases hxc
  · cases hxc
    rw [hchain]
    exact ⟨c.chain, findChain_of_mem h ht hc, hcmd, of_decide_eq_true hprio⟩

theorem pairwise_tableCommands (h : ipt.WF) (ht : t ∈ ipt.tables) (cur : Tables) :
    (tableCommands (compileTable cur t)).Pairwise fun x y =>
      x.op = .drop → findChain ipt t.name y.chain = some .delete := by
  rw [tableCommands, List.pairwise_flatMap]
  generalize hbs : (compileTable cur t).foldl bucketAppend [] = bs
  have hmem : ∀ b ∈ bs.insertionSort fun a b => a.1 ≤ b.1,
      b ∈ (compileTable cur t).foldl bucketAppend [] := by
    intro b hb
    rw [hbs]
    exact (List.mem_insertionSort ..).mp hb
  -- a chain with a priority as late as that of a deletion is itself staged for deletion
  have hlast : ∀ b ∈ bs.insertionSort fun a b => a.1 ≤ b.1,
      ∀ b' ∈ bs.insertionSort fun a b => a.1 ≤ b.1, b.1 ≤ b'.1 →
      ∀ x ∈ b.2, ∀ y ∈ b'.2, x.op = .drop → findChain ipt t.name y.chain = some .delete := by
    intro b hb b' hb' hle x hx y hy hdrop
    obtain ⟨ch, -, hcmd, hprio⟩ := chain_of_mem_bucket h ht (hmem b hb) hx
    obtain rfl := delete_of_drop hcmd hdrop
    obtain ⟨ch', hfind, -, hprio'⟩ := chain_of_mem_bucket h ht (hmem b' hb') hy
    have h127 : 127 ≤ (ch'.compile y.chain (chainOf cur t.name y.chain)).2 := by
      rw [hprio', show (127 : Int) = b.1 from hprio]
      exact hle
    rw [hfind, delete_of_priority h127]
  constructor
  · intro b hb
    refine List.pairwise_of_forall_mem_list fun x hx y hy => ?_
    exact hlast b hb b hb le_rfl x hx y hy
  · refine (List.pairwise_insertionSort (fun a b : Bucket => a.1 ≤ b.1) bs).imp_of_mem ?_
    intro b b' hb hb' hle x hx y hy
    exact hlast b hb b' hb' hle x hx y hy

theorem mem_transcriptBlock {b : Block} (hb : transcriptBlock cur t = some b) {cmd : Cmd}
    (hcmd : cmd ∈ b.cmds) : cmd.key.1 = t.name := by
  rw [Block.key_cmds hcmd, table_of_transcriptBlock hb]

theorem pairwise_block (h : ipt.WF) (ht : t ∈ ipt.tables) {b : Block}
    (hb : transcriptBlock cur t = some b) : b.cmds.Pairwise (Last ipt) := by
  have hkey := fun {cmd} (hcmd : cmd ∈ b.cmds) => mem_transcriptBlock hb hcmd
  simp only [transcriptBlock] at hb
  split at hb
  · cases hb
  cases hb
  rw [Block.cmds, List.pairwise_cons]
  refine ⟨fun y _ t' c hx => (by cases hx), ?_⟩
  rw [List.map_append, List.pairwise_append]
  refine ⟨?_, ?_, ?_⟩
  · -- declarations delete nothing
    refine List.pairwise_of_forall_mem_list fun x hx y _ t' c hdrop => ?_
    obtain ⟨o, ho, rfl⟩ := List.mem_map.mp hx
    obtain ⟨x, -, ho⟩ := List.mem_flatMap.mp ho
    obtain rfl := List.mem_singleton.mp ho
    cases hdrop
  · rw [List.map_map, List.pairwise_map]
    refine (pairwise_tableCommands h ht cur).imp ?_
    intro x y hxy t' c hdrop htable
    cases hdrop' : x.op <;> simp only [Function.comp_apply, hdrop', reduceCtorEq, Cmd.on.injEq,
      and_false] at hdrop
    obtain rfl : t.name = t' := hdrop.1
    exact hxy hdrop'
  · intro x hx y _ t' c hdrop
    obtain ⟨o, ho, rfl⟩ := List.mem_map.mp hx
    obtain ⟨x, -, ho⟩ := List.mem_flatMap.mp ho
    obtain rfl := List.mem_singleton.mp ho
    cases hdrop

/-- Deletions of chains come last in their tables. -/
theorem pairwise_last (h : ipt.WF) (cur : Tables) :
    ((transcriptBlocks ipt cur).flatMap Block.cmds).Pairwise (Last ipt) := by
  rw [List.pairwise_flatMap]
  constructor
  · intro b hb
    obtain ⟨t, ht, hb⟩ := List.mem_filterMap.mp hb
    exact pairwise_block h ht hb
  · -- different blocks are about different tables
    have hnd := List.pairwise_map.mp (nodup_transcriptBlocks h cur)
    refine hnd.imp ?_
    rintro b b' hne x hx y hy t c rfl htable
    have hxt : t = b.table := Block.key_cmds hx
    exact absurd (hxt.symm.trans (htable.symm.trans (Block.key_cmds hy))) hne

end Last

/-! ## The tables before a command -/

section Before

variable {ipt : Ipt} {cur ts ts' : Tables} {pre post : List Cmd} {t c : Bytes}

/-- The first commands of a transcript run, and each chain is then what its own operations among
them make of it. -/
theorem run_before (h : ipt.WF) (hts : ts.WF) (hcur : ∀ t c, chainOf cur t c = chainOf ts t c)
    (hsplit : (transcriptBlocks ipt cur).flatMap Block.cmds = pre ++ post) :
    ∃ ts₁, pre.foldlM execCmd ts = .ok ts₁ ∧ ts₁.WF ∧
      ∀ t c, runOps (opsAt pre t c) (chainOf ts t c) = .ok (chainOf ts₁ t c) := by
  have hgood : ∀ cmd ∈ pre, cmd.Clean := by
    intro cmd hcmd
    have hmem : cmd ∈ (transcriptBlocks ipt cur).flatMap Block.cmds := by
      rw [hsplit]
      exact List.mem_append_left _ hcmd
    obtain ⟨b, hb, hcmd⟩ := List.mem_flatMap.mp hmem
    exact clean_transcriptBlocks h cur b hb cmd hcmd
  obtain ⟨ts₁, hrun, hwf, hview⟩ := machine.run_part pre post ts hts hgood fun k => by
    obtain ⟨v', hv', -⟩ := script_ipt_reaches h k.1 k.2 hts.chainOf
    refine ⟨v', ?_⟩
    rw [← hsplit, cell_transcriptBlocks h, hcur]
    exact hv'
  refine ⟨ts₁, hrun, hwf, fun t c => ?_⟩
  rw [← cell_eq_runOps]
  exact hview (t, c)

theorem opsAt_split (h : ipt.WF)
    (hsplit : (transcriptBlocks ipt cur).flatMap Block.cmds = pre ++ post) (t c : Bytes) :
    opsAt pre t c ++ opsAt post t c = ipt.script t c (chainOf cur t c) := by
  rw [← opsAt_append, ← hsplit, opsAt_transcriptBlocks h]

theorem script_delete (hf : findChain ipt t c = some .delete) (v : Option (List Rule)) :
    ipt.script t c v = if v = none then [] else [.declare, .flush, .drop] := by
  rw [Ipt.script, hf]
  by_cases hv : v = none
  · rw [if_pos hv]
    exact script_eq_nil (if_pos hv)
  · rw [if_neg hv]
    show Chain.script .delete c v = _
    rw [Chain.script, Chain.compile, deleteCompile, if_neg hv]
    rfl

theorem delete_of_mem_script {v : Option (List Rule)} (h : Op.drop ∈ ipt.script t c v) :
    findChain ipt t c = some .delete := by
  unfold Ipt.script at h
  cases hf : findChain ipt t c with
  | none =>
    rw [hf] at h
    exact absurd h List.not_mem_nil
  | some ch =>
    rw [hf] at h
    simp only [Chain.script] at h
    split at h
    · exact absurd h List.not_mem_nil
    · rcases List.mem_cons.mp h with h | h
      · cases h
      · obtain ⟨cmd, hcmd, hop⟩ := List.mem_map.mp h
        rw [delete_of_drop hcmd hop]

theorem eq_of_drop {xs ys : List Op} (h : xs ++ .drop :: ys = [.declare, .flush, .drop]) :
    xs = [.declare, .flush] := by
  match xs, h with
  | [], h => simp at h
  | [_], h => simp at h
  | [x, y], h =>
    simp only [List.cons_append, List.nil_append, List.cons.injEq] at h
    rw [h.1, h.2.1]
  | x :: y :: z :: xs, h => simp at h

/-- What part of a deletion leaves of a chain. -/
theorem runOps_of_part {xs ys : List Op} {v v' : Option (List Rule)}
    (h : xs ++ ys = if v = none then [] else [.declare, .flush, .drop])
    (hrun : runOps xs v = .ok v') : ∀ rules, v' = some rules → rules = [] ∨ v = some rules := by
  intro rules hrules
  subst hrules
  cases v with
  | none =>
    rw [if_pos rfl, List.append_eq_nil_iff] at h
    rw [h.1] at hrun
    cases hrun
  | some l =>
    rw [if_neg (by simp)] at h
    match xs, h with
    | [], h =>
      cases hrun
      exact .inr rfl
    | [x], h =>
      simp only [List.cons_append, List.nil_append, List.cons.injEq] at h
      rw [h.1] at hrun
      cases hrun
      exact .inr rfl
    | [x, y], h =>
      simp only [List.cons_append, List.nil_append, List.cons.injEq] at h
      rw [h.1, h.2.1] at hrun
      cases hrun
      exact .inl rfl
    | [x, y, z], h =>
      simp only [List.cons_append, List.nil_append, List.cons.injEq] at h
      rw [h.1, h.2.1, h.2.2.1] at hrun
      cases hrun
    | x :: y :: z :: w :: xs, h => simp at h

/-- When a chain is deleted it is empty, the chains that stay have their final rules, and each
other chain that goes still has the rules it had, or none. -/
theorem at_drop (h : ipt.WF) (hts : ts.WF) (hcur : ∀ t c, chainOf cur t c = chainOf ts t c)
    (hsplit : (transcriptBlocks ipt cur).flatMap Block.cmds = pre ++ .on t c .drop :: post)
    (hafter : ∀ t c,
      runOps (ipt.script t c (chainOf ts t c)) (chainOf ts t c) = .ok (chainOf ts' t c)) :
    findChain ipt t c = some .delete ∧ (chainOf ts t c).isSome ∧
      ∃ ts₁, pre.foldlM execCmd ts = .ok ts₁ ∧ chainOf ts₁ t c = some [] ∧
        ∀ c', c' ≠ c →
          (findChain ipt t c' ≠ some .delete ∧ chainOf ts₁ t c' = chainOf ts' t c') ∨
          (findChain ipt t c' = some .delete ∧
            ∀ rules, chainOf ts₁ t c' = some rules → rules = [] ∨ chainOf ts t c' = some rules) := by
  obtain ⟨ts₁, hrun, -, hview⟩ := run_before h hts hcur hsplit
  have hpart := opsAt_split h hsplit
  have hdrop : opsAt pre t c ++ .drop :: opsAt post t c = ipt.script t c (chainOf ts t c) := by
    rw [← hcur, ← hpart t c]
    simp [opsAt, Cmd.opAt]
  have hfind : findChain ipt t c = some .delete := by
    refine delete_of_mem_script (v := chainOf ts t c) ?_
    rw [← hdrop]
    exact List.mem_append_right _ (List.mem_cons_self ..)
  rw [script_delete hfind] at hdrop
  have hsome : chainOf ts t c ≠ none := by
    intro hnone
    rw [if_pos hnone] at hdrop
    exact absurd (List.append_eq_nil_iff.mp hdrop).2 (List.cons_ne_nil _ _)
  rw [if_neg hsome] at hdrop
  refine ⟨hfind, Option.isSome_iff_ne_none.mpr hsome, ts₁, hrun, ?_, fun c' hc' => ?_⟩
  · have hc := hview t c
    rw [eq_of_drop hdrop] at hc
    exact (Except.ok.inj hc).symm
  · by_cases hfind' : findChain ipt t c' = some .delete
    · refine .inr ⟨hfind', ?_⟩
      have hpart' := hpart t c'
      rw [hcur, script_delete hfind'] at hpart'
      exact runOps_of_part hpart' (hview t c')
    · refine .inl ⟨hfind', ?_⟩
      -- the chain stays, so its operations come before any deletion in the table
      have hlast := pairwise_last h cur
      rw [hsplit, List.pairwise_append, List.pairwise_cons] at hlast
      have hnil : opsAt (.on t c .drop :: post) t c' = [] := by
        rw [opsAt, List.filterMap_eq_nil_iff]
        intro cmd hcmd
        rcases List.mem_cons.mp hcmd with rfl | hpost
        · exact if_neg fun hk => hc' hk.2.symm
        · cases cmd with
          | enter t' => rfl
          | on t' c'' op =>
            refine if_neg ?_
            rintro ⟨rfl, rfl⟩
            have hgone := hlast.2.1.1 (.on t' c'' op) hpost t' c rfl rfl
            exact hfind' hgone
      have hwhole := hpart t c'
      rw [hnil, List.append_nil, hcur] at hwhole
      have hc := hview t c'
      rw [hwhole, hafter] at hc
      exact (Except.ok.inj hc).symm

end Before

/-! ## The lines of a transcript -/

theorem opLine_eq_drop {c c' : Bytes} {op : Op} (h : opLine c' op = str "-X " ++ c) :
    op = .drop ∧ c' = c := by
  cases op with
  | declare => cases h
  | append r => cases r <;> simp [opLine, Words.unwords_cons_cons, str] at h
  | insert pos r => cases r <;> simp [opLine, Words.unwords_cons_cons, str] at h
  | delete r => cases r <;> simp [opLine, Words.unwords_cons_cons, str] at h
  | flush => simp [opLine, Words.unwords_cons_cons, str] at h
  | drop =>
    refine ⟨rfl, ?_⟩
    simpa [opLine, Words.unwords_cons_cons, str] using h

theorem restore_before_ops (t : Bytes) (os : List (Bytes × Op))
    (hos : ∀ o ∈ os, IsToken o.1 ∧ o.2.Clean) {before after : List Bytes} {c : Bytes}
    (h : os.map (fun o => opLine o.1 o.2) ++ [str "COMMIT"] = before ++ (str "-X " ++ c) :: after)
    (ts : Tables) :
    ∃ os₁ os₂, os = os₁ ++ (c, .drop) :: os₂ ∧ before.foldlM restoreLine ⟨ts, some t⟩ =
      ((os₁.map fun o => Cmd.on t o.1 o.2).foldlM execCmd ts).map fun ts' => ⟨ts', some t⟩ := by
  rcases List.append_eq_append_iff.mp h with ⟨rest, -, hrest⟩ | ⟨rest, hmap, hrest⟩
  · -- the line is not the one that closes the block
    rcases List.singleton_eq_append_iff.mp hrest with ⟨-, hline⟩ | ⟨-, hline⟩
    · simp [str] at hline
    · exact absurd hline (List.cons_ne_nil _ _)
  · rcases List.cons_eq_append_iff.mp hrest with ⟨rfl, hline⟩ | ⟨rest', rfl, -⟩
    · simp [str] at hline
    · obtain ⟨os₁, os₂, rfl, rfl, hos₂⟩ := List.map_eq_append_iff.mp hmap
      obtain ⟨o, os₂, rfl, ho, -⟩ := List.map_eq_cons_iff.mp hos₂
      obtain ⟨hop, hc⟩ := opLine_eq_drop ho
      refine ⟨os₁, os₂, by rw [← hop, ← hc], ?_⟩
      exact reads_restoreLine.ops t os₁ (fun o ho =>
        ⟨(hos o (List.mem_append_left _ ho)).1, (hos o (List.mem_append_left _ ho)).2, trivial⟩) ts

/-- The lines before one that deletes a chain run as the commands before the deletion. -/
theorem restore_before (bs : List Block) (hbs : ∀ b ∈ bs, b.Clean) {before after : List Bytes}
    {c : Bytes} (h : bs.flatMap Block.lines = before ++ (str "-X " ++ c) :: after) (ts : Tables) :
    ∃ pre post t, bs.flatMap Block.cmds = pre ++ .on t c .drop :: post ∧
      before.foldlM restoreLine ⟨ts, none⟩ =
        (pre.foldlM execCmd ts).map fun ts' => ⟨ts', some t⟩ := by
  induction bs generalizing before ts with
  | nil => simp at h
  | cons b bs ih =>
    have hb := hbs b (List.mem_cons_self ..)
    rw [List.flatMap_cons] at h
    -- the line stands in a later block
    have hlater : ∀ rest, before = b.lines ++ rest →
        bs.flatMap Block.lines = rest ++ (str "-X " ++ c) :: after →
        ∃ pre post t, (b :: bs).flatMap Block.cmds = pre ++ .on t c .drop :: post ∧
          before.foldlM restoreLine ⟨ts, none⟩ =
            (pre.foldlM execCmd ts).map fun ts' => ⟨ts', some t⟩ := by
      rintro rest rfl hrest
      rw [List.foldlM_append, reads_restoreLine.block b hb (fun _ _ => trivial)]
      cases hrun : b.cmds.foldlM execCmd ts with
      | error e =>
        obtain ⟨pre, post, t, hcmds, -⟩ :=
          ih (fun x hx => hbs x (List.mem_cons_of_mem _ hx)) hrest ts
        refine ⟨b.cmds ++ pre, post, t, by rw [List.flatMap_cons, hcmds, List.append_assoc], ?_⟩
        rw [List.foldlM_append, hrun]
        rfl
      | ok ts₁ =>
        obtain ⟨pre, post, t, hcmds, hpre⟩ :=
          ih (fun x hx => hbs x (List.mem_cons_of_mem _ hx)) hrest ts₁
        refine ⟨b.cmds ++ pre, post, t, by rw [List.flatMap_cons, hcmds, List.append_assoc], ?_⟩
        rw [List.foldlM_append, hrun]
        exact hpre
    rcases List.append_eq_append_iff.mp h with ⟨rest, hbefore, hrest⟩ | ⟨rest, hlines, hrest⟩
    · exact hlater rest hbefore hrest
    · rcases List.cons_eq_append_iff.mp hrest with ⟨rfl, hline⟩ | ⟨rest', rfl, -⟩
      · rw [List.append_nil] at hlines
        exact hlater [] (by rw [List.append_nil, hlines]) hline
      · -- the line stands in this block
        rw [Block.lines, List.cons_append] at hlines
        rcases List.cons_eq_append_iff.mp hlines with ⟨-, hline⟩ | ⟨before', rfl, hops⟩
        · simp [str] at hline
        · have hos : ∀ o ∈ b.ops, IsToken o.1 ∧ o.2.Clean := by
            intro o ho
            have hcmd := hb (.on b.table o.1 o.2) (List.mem_cons_of_mem _ (List.mem_map_of_mem ho))
            exact ⟨hcmd.2.1, hcmd.2.2⟩
          obtain ⟨os₁, os₂, heq, hrun⟩ :=
            restore_before_ops b.table b.ops hos hops (openTable ts b.table)
          refine ⟨.enter b.table :: os₁.map fun o => .on b.table o.1 o.2,
            (os₂.map fun o => .on b.table o.1 o.2) ++ bs.flatMap Block.cmds, b.table, ?_, ?_⟩
          · rw [List.flatMap_cons, Block.cmds, heq, List.map_append, List.map_cons]
            simp
          · rw [List.foldlM_cons, List.foldlM_cons]
            exact hrun

/-- The state of the fake executable when it comes to a line of a transcript that deletes a chain:
`at_drop` says what the tables are then. -/
theorem restore_before_text {ipt : Ipt} (h : ipt.WF) {cur : Tables} {before after : List Bytes}
    {c : Bytes}
    (hsplit : (transcript ipt cur).splitOn 10 = before ++ (str "-X " ++ c) :: after) (ts : Tables) :
    ∃ pre post t,
      (transcriptBlocks ipt cur).flatMap Block.cmds = pre ++ .on t c .drop :: post ∧
      before.foldlM restoreLine ⟨ts, none⟩ =
        (pre.foldlM execCmd ts).map fun ts' => ⟨ts', some t⟩ := by
  have hclean := clean_transcriptBlocks h cur
  have htext : transcript ipt cur =
      ((transcriptBlocks ipt cur).flatMap Block.lines).flatMap (· ++ [10]) := by
    rw [transcript_eq, List.flatMap_assoc]
    rfl
  rw [htext, Words.splitOn_terminated _ _ fun l hl => by
    obtain ⟨b, hb, hl⟩ := List.mem_flatMap.mp hl
    exact Block.not_mem_lines (hclean b hb) l hl] at hsplit
  rcases List.append_eq_append_iff.mp hsplit with ⟨rest, -, hrest⟩ | ⟨rest, hlines, hrest⟩
  · rcases List.singleton_eq_append_iff.mp hrest with ⟨-, hline⟩ | ⟨-, hline⟩
    · simp [str] at hline
    · exact absurd hline (List.cons_ne_nil _ _)
  · rcases List.cons_eq_append_iff.mp hrest with ⟨rfl, hline⟩ | ⟨rest', rfl, -⟩
    · simp [str] at hline
    · exact restore_before _ hclean hlines ts

/-! ## Scripts on existing chains -/

/-- The table or chain of the command is there. -/
def Cmd.Known (ts : Tables) : Cmd → Prop
  | enter t => t ∈ ts.map TableRules.name
  | on t c _ => (chainOf ts t c).isSome

theorem within_execCmd {ts ts' : Tables} {cmd : Cmd} (hk : cmd.Known ts)
    (h : execCmd ts cmd = .ok ts') : Within ts' ts := by
  cases cmd with
  | enter t =>
    cases h
    exact within_openTable hk
  | on t c op =>
    cases op with
    | declare =>
      cases h
      exact within_setChain hk _
    | append r =>
      cases h
      exact within_setChain hk _
    | insert pos r =>
      simp only [execCmd, execOp] at h
      split at h <;> cases h
      exact within_setChain hk _
    | delete r =>
      simp only [execCmd, execOp] at h
      split at h
      · cases h
      · split at h <;> cases h
        exact within_setChain hk _
    | flush =>
      cases h
      exact within_setChain hk _
    | drop =>
      simp only [execCmd, execOp] at h
      split at h
      · cases h
        exact .refl _
      · split at h <;> cases h
        exact within_dropChain hk

/-- A script whose commands find their chains in place only takes chains away. -/
theorem within_run (cmds : List Cmd) {ts ts' : Tables} (hrun : cmds.foldlM execCmd ts = .ok ts')
    (hknown : ∀ pre cmd post ts₁, cmds = pre ++ cmd :: post →
      pre.foldlM execCmd ts = .ok ts₁ → Within ts₁ ts → cmd.Known ts₁) : Within ts' ts := by
  induction cmds using List.reverseRecOn generalizing ts' with
  | nil =>
    cases hrun
    exact .refl _
  | append_singleton cmds cmd ih =>
    rw [List.foldlM_append] at hrun
    cases hpre : cmds.foldlM execCmd ts with
    | error e =>
      rw [hpre] at hrun
      cases hrun
    | ok ts₁ =>
      rw [hpre] at hrun
      have hwithin := ih hpre fun pre cmd' post ts₂ hsplit =>
        hknown pre cmd' (post ++ [cmd]) ts₂ (by rw [hsplit, List.append_assoc]; rfl)
      have hcmd : execCmd ts₁ cmd = .ok ts' := by
        have hlast : [cmd].foldlM execCmd ts₁ = .ok ts' := hrun
        rw [List.foldlM_cons] at hlast
        cases hexec : execCmd ts₁ cmd with
        | error e =>
          rw [hexec] at hlast
          cases hlast
        | ok ts₂ =>
          rw [hexec] at hlast
          exact hlast
      exact (within_execCmd (hknown cmds cmd [] ts₁ rfl hpre hwithin) hcmd).trans hwithin

theorem isSome_runOps {os : List Op} (hos : Op.drop ∉ os) {v v' : Option (List Rule)}
    (hv : v.isSome) (hrun : runOps os v = .ok v') : v'.isSome := by
  induction os generalizing v with
  | nil =>
    cases hrun
    exact hv
  | cons o os ih =>
    rw [runOps_cons] at hrun
    cases ho : o.act v with
    | error e =>
      rw [ho] at hrun
      cases hrun
    | ok w =>
      rw [ho] at hrun
      refine ih (fun h => hos (List.mem_cons_of_mem _ h)) ?_ hrun
      obtain ⟨l, rfl⟩ := Option.isSome_iff_exists.mp hv
      cases o with
      | drop => exact absurd (List.mem_cons_self ..) hos
      | declare | append | flush =>
        cases ho
        rfl
      | insert pos r | delete r =>
        rw [Op.act] at ho
        split at ho <;> cases ho
        rfl

/-- A chain is there until the last of its operations. -/
theorem isSome_of_part {ipt : Ipt} {t c : Bytes} {v v' : Option (List Rule)} {xs ys : List Op}
    {o : Op} (h : xs ++ o :: ys = ipt.script t c v) (hv : v.isSome)
    (hrun : runOps xs v = .ok v') : v'.isSome := by
  by_cases hdrop : Op.drop ∈ xs
  · have hf : findChain ipt t c = some .delete :=
      delete_of_mem_script (v := v) (h ▸ List.mem_append_left _ hdrop)
    rw [script_delete hf, if_neg (Option.isSome_iff_ne_none.mp hv)] at h
    obtain ⟨xs₁, xs₂, rfl⟩ := List.append_of_mem hdrop
    rw [List.append_assoc, List.cons_append] at h
    rw [eq_of_drop h] at h
    simp at h
  · exact isSome_runOps hdrop hv hrun

/-- A transcript that works on existing chains only takes chains away. -/
theorem within_transcript {ipt : Ipt} (h : ipt.WF) {cur ts ts' : Tables} (hts : ts.WF)
    (hcur : ∀ t c, chainOf cur t c = chainOf ts t c)
    (hex : ∀ t c, ipt.script t c (chainOf ts t c) ≠ [] → (chainOf ts t c).isSome)
    (hrun : ((transcriptBlocks ipt cur).flatMap Block.cmds).foldlM execCmd ts = .ok ts') :
    Within ts' ts := by
  refine within_run _ hrun fun pre cmd post ts₁ hsplit hpre hwithin => ?_
  cases cmd with
  | enter t =>
    -- a block has a chain with commands, and that chain is there
    have hmem : Cmd.enter t ∈ (transcriptBlocks ipt cur).flatMap Block.cmds := by
      rw [hsplit]
      exact List.mem_append_right _ (List.mem_cons_self ..)
    obtain ⟨b, hb, hcmd⟩ := List.mem_flatMap.mp hmem
    obtain ⟨tr, htr, hb⟩ := List.mem_filterMap.mp hb
    obtain rfl : tr.name = t := (mem_transcriptBlock hb hcmd).symm
    have hne : compileTable cur tr ≠ [] := by
      intro hnil
      simp [transcriptBlock, hnil] at hb
    obtain ⟨x, hx⟩ := List.exists_mem_of_ne_nil _ hne
    obtain ⟨c, hc, -, hcmds, hxne⟩ := mem_compileTable hx
    have hscript : ipt.script tr.name c.name (chainOf ts tr.name c.name) ≠ [] := by
      rw [hcmds, hcur] at hxne
      rw [Ipt.script, findChain_of_mem h htr hc]
      show Chain.script _ _ _ ≠ []
      rw [Chain.script, if_neg hxne]
      exact List.cons_ne_nil _ _
    show tr.name ∈ ts₁.map TableRules.name
    rw [hwithin.names]
    exact mem_names_of_isSome (hex _ _ hscript)
  | on t c op =>
    obtain ⟨ts₂, hpre', -, hview⟩ := run_before h hts hcur hsplit
    obtain rfl : ts₁ = ts₂ := Except.ok.inj (hpre.symm.trans hpre')
    have hpart : opsAt pre t c ++ op :: opsAt post t c = ipt.script t c (chainOf ts t c) := by
      rw [← hcur, ← opsAt_split h hsplit]
      simp [opsAt, Cmd.opAt]
    have hsome : (chainOf ts t c).isSome := by
      refine hex t c fun hnil => ?_
      rw [hnil] at hpart
      exact absurd (List.append_eq_nil_iff.mp hpart).2 (List.cons_ne_nil _ _)
    exact isSome_of_part hpart hsome (hview t c)

end MagiTrickle.Iptables
