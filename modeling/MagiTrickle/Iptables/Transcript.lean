import MagiTrickle.Iptables.Listing

/-!
# The transcript on one chain

The transcript is a script with one block for each table that needs work
(`transcript_eq`). Bucketing and sorting by priority mixes the commands of
different chains; each chain still sees its own declaration and its own
commands in order (`opsOf_transcriptBlock`), so the fake executable does to a
chain what those commands do (`commit_chain`).
-/

namespace MagiTrickle.Iptables

open MagiTrickle.Lib

/-! ## Commands as operations -/

def Command.op (cmd : Command) : Op :=
  match cmd.option with
  | .append => .append cmd.rule
  | .insert => .insert cmd.ruleNum cmd.rule
  | .delete => .delete cmd.rule
  | .flush => .flush
  | .deleteChain => .drop

theorem unwords_ruleSuffix (w : Bytes) (r : Rule) : w ++ ruleSuffix r = Words.unwords 32 (w :: r) := by
  cases r with
  | nil => simp [ruleSuffix]
  | cons p r =>
    rw [ruleSuffix, if_neg (List.cons_ne_nil _ _), Words.unwords_cons_cons]
    rfl

theorem writeCommand_eq (cmd : Command) : writeCommand cmd = opLine cmd.chain cmd.op ++ [10] := by
  unfold writeCommand Command.op
  cases cmd.option with
  | append =>
    simp only [opLine, Words.unwords_cons_cons]
    rw [List.append_assoc (str "-A "), unwords_ruleSuffix]
    rfl
  | delete =>
    simp only [opLine, Words.unwords_cons_cons]
    rw [List.append_assoc (str "-D "), unwords_ruleSuffix]
    rfl
  | insert =>
    simp only [opLine, Words.unwords_cons_cons]
    rw [← unwords_ruleSuffix]
    simp [str]
  | flush =>
    simp only [opLine, Words.unwords_cons_cons, Words.unwords_singleton]
    rfl
  | deleteChain =>
    simp only [opLine, Words.unwords_cons_cons, Words.unwords_singleton]
    rfl

def transcriptBlock (cur : Tables) (t : TableReg) : Option Block :=
  let cs := compileTable cur t
  if cs = [] then none
  else some ⟨t.name, cs.flatMap (fun c => [(c.name, .declare)]) ++
    (tableCommands cs).map fun cmd => (cmd.chain, cmd.op)⟩

def transcriptBlocks (ipt : Ipt) (cur : Tables) : List Block :=
  ipt.tables.filterMap (transcriptBlock cur)

theorem tableTranscript_eq (cur : Tables) (t : TableReg) :
    tableTranscript cur t = (transcriptBlock cur t).toList.flatMap Block.text := by
  rw [tableTranscript, transcriptBlock]
  by_cases hcs : compileTable cur t = []
  · simp [hcs]
  · have hdecl : (compileTable cur t).flatMap (fun c => 58 :: c.name ++ str " - [0:0]\n") =
        (((compileTable cur t).flatMap fun c => [(c.name, Op.declare)]).map fun o =>
          opLine o.1 o.2).flatMap (· ++ [10]) := by
      rw [flatMap_terminated_map]
      apply List.flatMap_congr
      intro c _
      simp [opLine, str]
    have hcmds : (tableCommands (compileTable cur t)).flatMap writeCommand =
        (((tableCommands (compileTable cur t)).map fun cmd => (cmd.chain, cmd.op)).map fun o =>
          opLine o.1 o.2).flatMap (· ++ [10]) := by
      rw [List.map_map, List.flatMap_map]
      apply List.flatMap_congr
      intro cmd _
      exact writeCommand_eq cmd
    simp only [if_neg hcs]
    rw [hdecl, hcmds]
    simp only [Option.toList_some, List.flatMap_cons, List.flatMap_nil,
      List.append_nil, Block.text, Block.lines, List.map_append, List.flatMap_append,
      List.cons_append]
    simp [str]

theorem transcript_eq (ipt : Ipt) (cur : Tables) :
    transcript ipt cur = (transcriptBlocks ipt cur).flatMap Block.text := by
  rw [transcript, transcriptBlocks]
  induction ipt.tables with
  | nil => rfl
  | cons t ts ih =>
    rw [List.flatMap_cons, tableTranscript_eq, ih, List.filterMap_cons]
    cases transcriptBlock cur t <;> simp

/-! ## Buckets -/

def bucketOf (bs : List Bucket) (p : Int) : List Command :=
  ((bs.find? fun b => b.1 = p).map Prod.snd).getD []

theorem keyed_bucket (c : Compiled) : Upsert.Keyed Prod.fst
    (⟨c.priority, (c.priority, c.cmds), fun b => (b.1, b.2 ++ c.cmds)⟩ : Upsert Int Bucket) :=
  ⟨rfl, fun _ he => he⟩

theorem bucketOf_bucketAppend (bs : List Bucket) (c : Compiled) (p : Int) :
    bucketOf (bucketAppend bs c) p = bucketOf bs p ++ if c.priority = p then c.cmds else [] := by
  unfold bucketOf bucketAppend
  by_cases h : c.priority = p
  · subst h
    rw [Upsert.find?_upsert_self (keyed_bucket c), if_pos rfl]
    cases bs.find? fun b => b.1 = c.priority <;> simp
  · rw [Upsert.find?_upsert_ne (keyed_bucket c) (Ne.symm h), if_neg h, List.append_nil]

theorem bucketOf_foldl (cs : List Compiled) (bs : List Bucket) (p : Int) :
    bucketOf (cs.foldl bucketAppend bs) p =
      bucketOf bs p ++ (cs.filter fun c => c.priority = p).flatMap Compiled.cmds := by
  induction cs generalizing bs with
  | nil => simp
  | cons c cs ih =>
    rw [List.foldl_cons, ih, bucketOf_bucketAppend, List.filter_cons, List.append_assoc]
    by_cases h : c.priority = p <;> simp [h]

theorem nodup_buckets (cs : List Compiled) (bs : List Bucket) (h : (bs.map Prod.fst).Nodup) :
    ((cs.foldl bucketAppend bs).map Prod.fst).Nodup := by
  induction cs generalizing bs with
  | nil => exact h
  | cons c cs ih => exact ih _ (Upsert.nodup_upsert (keyed_bucket c) h)

theorem snd_of_mem_buckets {cs : List Compiled} {b : Bucket} (hb : b ∈ cs.foldl bucketAppend []) :
    b.2 = (cs.filter fun c => c.priority = b.1).flatMap Compiled.cmds := by
  have h := bucketOf_foldl cs [] b.1
  rw [bucketOf, Upsert.find?_of_nodup (nodup_buckets cs [] List.nodup_nil) hb] at h
  simpa [bucketOf] using h

/-- Every command of a compiled chain names that chain. -/
def Compiled.Named (c : Compiled) : Prop := ∀ cmd ∈ c.cmds, cmd.chain = c.name

/-- Sorted by priority, the commands of one chain keep their order. -/
theorem filter_tableCommands {cs : List Compiled} (hnd : (cs.map Compiled.name).Nodup)
    (hnamed : ∀ c ∈ cs, c.Named) {c : Compiled} (hc : c ∈ cs) (hne : c.cmds ≠ []) :
    (tableCommands cs).filter (fun cmd => cmd.chain = c.name) = c.cmds := by
  have hprio : c ∈ cs.filter fun x => x.priority = c.priority := List.mem_filter.mpr ⟨hc, by simp⟩
  -- the bucket of the chain's priority exists: it holds the chain's commands
  obtain ⟨b, hb, hbp⟩ : ∃ b ∈ cs.foldl bucketAppend [], b.1 = c.priority := by
    have h := bucketOf_foldl cs [] c.priority
    cases hf : (cs.foldl bucketAppend []).find? fun b => b.1 = c.priority with
    | some b => exact ⟨b, List.mem_of_find?_eq_some hf, by simpa using List.find?_some hf⟩
    | none =>
      rw [bucketOf, hf] at h
      have hnil : (cs.filter fun x => x.priority = c.priority).flatMap Compiled.cmds = [] := by
        simpa [bucketOf] using h.symm
      exact absurd (List.flatMap_eq_nil_iff.mp hnil c hprio) hne
  have hperm := List.perm_insertionSort (fun a b : Bucket => a.1 ≤ b.1) (cs.foldl bucketAppend [])
  have hsorted : (((cs.foldl bucketAppend []).insertionSort fun a b => a.1 ≤ b.1).map Prod.fst).Nodup :=
    (hperm.map _).nodup_iff.mpr (nodup_buckets cs [] List.nodup_nil)
  have hnames : ((cs.filter fun x => x.priority = c.priority).map Compiled.name).Nodup :=
    hnd.sublist (List.filter_sublist.map _)
  rw [tableCommands, Keyed.filter_flatMap_of_mem hsorted (hperm.mem_iff.mpr hb),
    snd_of_mem_buckets hb, hbp, Keyed.filter_flatMap_of_mem hnames hprio, List.filter_eq_self]
  · intro cmd hcmd
    exact decide_eq_true (hnamed c hc cmd hcmd)
  · intro x hx hxn cmd hcmd
    exact decide_eq_false ((hnamed x (List.mem_filter.mp hx).1 cmd hcmd).symm ▸ hxn)
  · intro y hy hyb cmd hcmd
    rw [snd_of_mem_buckets (hperm.mem_iff.mp hy)] at hcmd
    obtain ⟨x, hx, hcmd⟩ := List.mem_flatMap.mp hcmd
    obtain ⟨hx, hxp⟩ := List.mem_filter.mp hx
    have hxp : x.priority = y.1 := by simpa using hxp
    refine decide_eq_false fun he => hyb ?_
    have : x = c := List.inj_on_of_nodup_map hnd hx hc ((hnamed x hx cmd hcmd).symm.trans he)
    rw [hbp, ← hxp, this]

theorem mem_tableCommands {cs : List Compiled} {cmd : Command} (h : cmd ∈ tableCommands cs) :
    ∃ c ∈ cs, cmd ∈ c.cmds := by
  obtain ⟨b, hb, hcmd⟩ := List.mem_flatMap.mp h
  rw [snd_of_mem_buckets ((List.mem_insertionSort ..).mp hb)] at hcmd
  obtain ⟨c, hc, hcmd⟩ := List.mem_flatMap.mp hcmd
  exact ⟨c, (List.mem_filter.mp hc).1, hcmd⟩

end MagiTrickle.Iptables
