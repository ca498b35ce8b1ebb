import MagiTrickle.Iptables.Commit

/-!
# Reading the transcript back

`readScript` splits a text into lines and words as `mt_ipt_get_current_rules`
does and lists the chains that are declared and the commands that are given,
each with its table. `intended` is the list that the compiled commands stand
for. For names and arguments that are words the two agree (`readScript_transcript`);
since a reader of words finds only words (`isToken_of_mem_readLines`), they agree
for no others.
-/

namespace MagiTrickle.Iptables

open MagiTrickle.Lib

inductive Item where
  | declare (table chain : Bytes)
  | command (table option chain : Bytes) (args : List Bytes)
  deriving DecidableEq, Repr

/-! ## Reading -/

def readLine (cur : Option Bytes) (line : Bytes) : Except Err (Option Bytes × List Item) :=
  match line with
  | [] => .ok (cur, [])
  | 42 :: name => .ok (some name, [])
  | 58 :: body =>
    let name := body.takeWhile (· ≠ 32)
    if name = [] then .error .proto
    else match cur with
      | none => .error .proto
      | some t => .ok (cur, [.declare t name])
  | 45 :: _ =>
    match cur with
    | none => .error .proto
    | some t =>
      match splitFields line with
      | option :: chain :: args =>
        if option.length < 2 then .error .proto else .ok (cur, [.command t option chain args])
      | _ => .error .proto
  | 35 :: _ => .ok (cur, [])
  | 67 :: _ => .ok (none, [])
  | _ => .error .proto

def readLines : Option Bytes → List Bytes → Except Err (List Item)
  | _, [] => .ok []
  | cur, line :: lines =>
    match readLine cur line with
    | .error e => .error e
    | .ok (cur, items) => (readLines cur lines).map (items ++ ·)

def readScript (text : Bytes) : Except Err (List Item) := readLines none (text.splitOn 10)

/-! ## What is meant -/

def Opt.word : Opt → Bytes
  | .append => str "-A"
  | .insert => str "-I"
  | .delete => str "-D"
  | .flush => str "-F"
  | .deleteChain => str "-X"

def Command.args (cmd : Command) : List Bytes :=
  match cmd.option with
  | .append | .delete => cmd.rule
  | .insert => Libc.formatInt cmd.ruleNum :: cmd.rule
  | .flush | .deleteChain => []

def Command.item (table : Bytes) (cmd : Command) : Item :=
  .command table cmd.option.word cmd.chain cmd.args

/-- The chains of a table that need work, and the commands compiled for them. -/
def tableItems (cur : Tables) (t : TableReg) : List Item :=
  let cs := compileTable cur t
  cs.map (fun c => .declare t.name c.name) ++ (tableCommands cs).map (Command.item t.name)

def intended (ipt : Ipt) (cur : Tables) : List Item := ipt.tables.flatMap (tableItems cur)

/-! ## Words are read back -/

/-- The item of an operation. -/
def Op.item (t c : Bytes) : Op → Item
  | .declare => .declare t c
  | .append r => .command t (str "-A") c r
  | .insert pos r => .command t (str "-I") c (Libc.formatInt pos :: r)
  | .delete r => .command t (str "-D") c r
  | .flush => .command t (str "-F") c []
  | .drop => .command t (str "-X") c []

def Block.items (b : Block) : List Item := b.ops.map fun o => o.2.item b.table o.1

theorem item_op (t : Bytes) (cmd : Command) : cmd.op.item t cmd.chain = cmd.item t := by
  unfold Command.op Command.item Command.args
  cases cmd.option <;> rfl

theorem intended_eq (ipt : Ipt) (cur : Tables) :
    intended ipt cur = (transcriptBlocks ipt cur).flatMap Block.items := by
  unfold intended transcriptBlocks
  induction ipt.tables with
  | nil => rfl
  | cons t ts ih =>
    rw [List.flatMap_cons, ih, List.filterMap_cons]
    unfold tableItems transcriptBlock
    by_cases hcs : compileTable cur t = []
    · simp [hcs, tableCommands]
    · rw [if_neg hcs]
      dsimp only
      rw [List.flatMap_cons]
      congr 1
      simp only [Block.items, List.map_append, List.map_map, List.map_flatMap]
      congr 1
      · rw [List.map_eq_flatMap]
        simp [Op.item]
      · refine List.map_congr_left fun cmd _ => ?_
        exact (item_op t.name cmd).symm

section Lines

variable {t c : Bytes} {op : Op}

theorem readLine_command {line rest name : Bytes} {args : List Bytes} (hline : line = 45 :: rest)
    {w : Bytes} (hf : splitFields line = w :: name :: args) (hw : 2 ≤ w.length) :
    readLine (some t) line = .ok (some t, [.command t w name args]) := by
  subst hline
  simp only [readLine, hf, if_neg (Nat.not_lt.mpr hw)]

theorem readLine_opLine (hc : IsToken c) (hop : op.Clean) :
    readLine (some t) (opLine c op) = .ok (some t, [op.item t c]) := by
  cases op with
  | declare =>
    have htake : (c ++ str " - [0:0]").takeWhile (· ≠ 32) = c := by
      have hall : ∀ x ∈ c, decide (x ≠ 32) = true := by
        intro x hx
        have := hc.1.2 x hx
        simp only [isBlank, decide_eq_false_iff_not, not_or] at this
        simpa using this.1
      rw [show str " - [0:0]" = 32 :: str "- [0:0]" from rfl, List.takeWhile_append_of_pos hall,
        List.takeWhile_cons_of_neg (by simp), List.append_nil]
    show (if (c ++ str " - [0:0]").takeWhile (· ≠ 32) = [] then Except.error Err.proto
      else .ok (some t, [Item.declare t ((c ++ str " - [0:0]").takeWhile (· ≠ 32))])) = _
    rw [htake, if_neg hc.1.1]
    rfl
  | append r =>
    rw [opLine, readLine_command (by rw [Words.unwords_cons_cons]; rfl)
      (splitFields_op "-A" (by decide) hc hop) (by decide)]
    rfl
  | insert pos r =>
    have hr : ∀ p ∈ Libc.formatInt pos :: r, IsToken p := by
      intro p hp
      rcases List.mem_cons.mp hp with rfl | hp
      · exact isToken_formatInt (by have := hop.1.1; omega)
      · exact hop.2 p hp
    rw [opLine, readLine_command (by rw [Words.unwords_cons_cons]; rfl)
      (splitFields_op "-I" (by decide) hc hr) (by decide)]
    rfl
  | delete r =>
    rw [opLine, readLine_command (by rw [Words.unwords_cons_cons]; rfl)
      (splitFields_op "-D" (by decide) hc hop) (by decide)]
    rfl
  | flush =>
    rw [opLine, readLine_command (by rw [Words.unwords_cons_cons]; rfl)
      (splitFields_op "-F" (by decide) hc (by simp)) (by decide)]
    rfl
  | drop =>
    rw [opLine, readLine_command (by rw [Words.unwords_cons_cons]; rfl)
      (splitFields_op "-X" (by decide) hc (by simp)) (by decide)]
    rfl

theorem readLines_cons {cur cur' : Option Bytes} {line : Bytes} {items : List Item}
    (h : readLine cur line = .ok (cur', items)) (lines : List Bytes) :
    readLines cur (line :: lines) = (readLines cur' lines).map (items ++ ·) := by
  rw [readLines, h]

theorem map_append_map (x : Except Err (List Item)) (is js : List Item) :
    (x.map (js ++ ·)).map (is ++ ·) = x.map (is ++ js ++ ·) := by
  cases x with
  | error e => rfl
  | ok items =>
    show Except.ok (is ++ (js ++ items)) = .ok (is ++ js ++ items)
    rw [List.append_assoc]

theorem readLines_ops (os : List (Bytes × Op)) (hos : ∀ o ∈ os, IsToken o.1 ∧ o.2.Clean)
    (lines : List Bytes) :
    readLines (some t) (os.map (fun o => opLine o.1 o.2) ++ lines) =
      (readLines (some t) lines).map (os.map (fun o => o.2.item t o.1) ++ ·) := by
  induction os with
  | nil =>
    rw [List.map_nil, List.map_nil, List.nil_append]
    cases readLines (some t) lines <;> rfl
  | cons o os ih =>
    obtain ⟨hc, hop⟩ := hos o (List.mem_cons_self ..)
    rw [List.map_cons, List.cons_append, readLines_cons (readLine_opLine hc hop),
      ih fun x hx => hos x (List.mem_cons_of_mem _ hx), map_append_map]
    rfl

theorem readLines_block (b : Block) (hb : b.Clean) (cur : Option Bytes) (lines : List Bytes) :
    readLines cur (b.lines ++ lines) = (readLines none lines).map (b.items ++ ·) := by
  have hops : ∀ o ∈ b.ops, IsToken o.1 ∧ o.2.Clean := by
    intro o ho
    exact (hb (.on b.table o.1 o.2) (List.mem_cons_of_mem _ (List.mem_map_of_mem ho))).2
  have hcommit : readLines (some b.table) (str "COMMIT" :: lines) =
      (readLines none lines).map ([] ++ ·) := readLines_cons rfl lines
  have htable : readLine cur (42 :: b.table) = .ok (some b.table, []) := rfl
  rw [Block.lines, List.cons_append, List.cons_append, readLines_cons htable, List.append_assoc,
    readLines_ops b.ops hops, List.singleton_append, hcommit, map_append_map, map_append_map,
    List.nil_append, List.append_nil]
  rfl

theorem readLines_blocks (bs : List Block) (hbs : ∀ b ∈ bs, b.Clean) (lines : List Bytes) :
    readLines none (bs.flatMap Block.lines ++ lines) =
      (readLines none lines).map (bs.flatMap Block.items ++ ·) := by
  induction bs with
  | nil =>
    rw [List.flatMap_nil, List.flatMap_nil, List.nil_append]
    cases readLines none lines <;> rfl
  | cons b bs ih =>
    rw [List.flatMap_cons, List.append_assoc, readLines_block b (hbs b (List.mem_cons_self ..)),
      ih fun x hx => hbs x (List.mem_cons_of_mem _ hx), map_append_map, List.flatMap_cons]

end Lines

/-- A transcript of words is read as what is meant. -/
theorem readScript_transcript {ipt : Ipt} (h : ipt.WF) (cur : Tables) :
    readScript (transcript ipt cur) = .ok (intended ipt cur) := by
  have hclean := clean_transcriptBlocks h cur
  have htext : (transcriptBlocks ipt cur).flatMap Block.text =
      ((transcriptBlocks ipt cur).flatMap Block.lines).flatMap (· ++ [10]) := by
    rw [List.flatMap_assoc]
    rfl
  have hlines : ∀ l ∈ (transcriptBlocks ipt cur).flatMap Block.lines, (10 : UInt8) ∉ l := by
    intro l hl
    obtain ⟨b, hb, hl⟩ := List.mem_flatMap.mp hl
    exact Block.not_mem_lines (hclean b hb) l hl
  rw [readScript, transcript_eq, htext, Words.splitOn_terminated _ _ hlines,
    readLines_blocks _ hclean, intended_eq]
  show Except.ok (_ ++ ([] ++ [])) = _
  rw [List.append_nil, List.append_nil]

/-! ## Only words are read -/

/-- The option, the chain and the arguments of a command are words. -/
def Item.Words : Item → Prop
  | .declare _ _ => True
  | .command _ option chain args => IsToken option ∧ IsToken chain ∧ ∀ a ∈ args, IsToken a

theorem isToken_of_mem_splitFields {line w : Bytes} (hline : (10 : UInt8) ∉ line)
    (h : w ∈ splitFields line) : IsToken w :=
  ⟨Words.isWord_of_mem_fields h, fun hmem => hline (Words.mem_of_mem_fields h 10 hmem)⟩

theorem words_of_mem_readLine {cur cur' : Option Bytes} {line : Bytes} {items : List Item}
    (hline : (10 : UInt8) ∉ line) (h : readLine cur line = .ok (cur', items)) :
    ∀ i ∈ items, i.Words := by
  have hnone : items = [] → ∀ i ∈ items, i.Words := by
    rintro rfl i hi
    cases hi
  unfold readLine at h
  split at h
  · exact hnone (by cases h; rfl)
  · exact hnone (by cases h; rfl)
  · dsimp only at h
    split at h
    · cases h
    · split at h
      · cases h
      · cases h
        intro i hi
        rw [List.mem_singleton.mp hi]
        trivial
  · split at h
    · cases h
    · split at h
      · next option chain args hfields =>
        split at h
        · cases h
        · cases h
          intro i hi
          rw [List.mem_singleton.mp hi]
          have htoken := fun w hw => isToken_of_mem_splitFields (w := w) hline hw
          rw [hfields] at htoken
          refine ⟨htoken option (by simp), htoken chain (by simp), fun a ha => htoken a ?_⟩
          simp [ha]
      · cases h
  · exact hnone (by cases h; rfl)
  · exact hnone (by cases h; rfl)
  · cases h

theorem words_of_mem_readLines {cur : Option Bytes} {lines : List Bytes} {items : List Item}
    (hlines : ∀ l ∈ lines, (10 : UInt8) ∉ l) (h : readLines cur lines = .ok items) :
    ∀ i ∈ items, i.Words := by
  induction lines generalizing cur items with
  | nil =>
    cases h
    intro i hi
    cases hi
  | cons line lines ih =>
    rw [readLines] at h
    cases hl : readLine cur line with
    | error e =>
      rw [hl] at h
      cases h
    | ok x =>
      obtain ⟨cur', is⟩ := x
      rw [hl] at h
      dsimp only at h
      cases hrest : readLines cur' lines with
      | error e =>
        rw [hrest] at h
        cases h
      | ok js =>
        rw [hrest] at h
        cases h
        intro i hi
        rcases List.mem_append.mp hi with hi | hi
        · exact words_of_mem_readLine (hlines line (List.mem_cons_self ..)) hl i hi
        · exact ih (fun l hl' => hlines l (List.mem_cons_of_mem _ hl')) hrest i hi

theorem words_of_mem_readScript {text : Bytes} {items : List Item}
    (h : readScript text = .ok items) : ∀ i ∈ items, i.Words := by
  refine words_of_mem_readLines (fun l hl hmem => ?_) h
  have := Words.not_sep_of_mem_splitOnP hl 10 hmem
  simp at this

/-! ## What is meant for an override chain -/

theorem mem_tableCommands_of_mem {cs : List Compiled} {c : Compiled} (hc : c ∈ cs) {cmd : Command}
    (hcmd : cmd ∈ c.cmds) : cmd ∈ tableCommands cs := by
  have hbucket : cmd ∈ bucketOf (cs.foldl bucketAppend []) c.priority := by
    rw [bucketOf_foldl]
    refine List.mem_append_right _ (List.mem_flatMap.mpr ⟨c, List.mem_filter.mpr ⟨hc, ?_⟩, hcmd⟩)
    simp
  unfold bucketOf at hbucket
  cases hf : (cs.foldl bucketAppend []).find? fun b => b.1 = c.priority with
  | none =>
    rw [hf] at hbucket
    cases hbucket
  | some b =>
    rw [hf] at hbucket
    exact List.mem_flatMap.mpr
      ⟨b, (List.mem_insertionSort ..).mpr (List.mem_of_find?_eq_some hf), hbucket⟩

/-- The commands compiled for a registered chain are meant to be written. -/
theorem mem_intended {ipt : Ipt} {cur : Tables} {t c : Bytes} {ch : Chain}
    (hf : findChain ipt t c = some ch) {cmd : Command}
    (hcmd : cmd ∈ (ch.compile c (chainOf cur t c)).1) : cmd.item t ∈ intended ipt cur := by
  obtain ⟨tr, ht, hf⟩ := Option.bind_eq_some_iff.mp hf
  obtain ⟨cr, hc, rfl⟩ := Option.map_eq_some_iff.mp hf
  obtain rfl : tr.name = t := by simpa using List.find?_some ht
  obtain rfl : cr.name = c := by simpa using List.find?_some hc
  refine List.mem_flatMap.mpr ⟨tr, List.mem_of_find?_eq_some ht, ?_⟩
  refine List.mem_append_right _ (List.mem_map_of_mem ?_)
  have hne : (cr.chain.compile cr.name (chainOf cur tr.name cr.name)).1 ≠ [] :=
    List.ne_nil_of_mem hcmd
  have hmem : (⟨cr.name, (cr.chain.compile cr.name (chainOf cur tr.name cr.name)).1,
      (cr.chain.compile cr.name (chainOf cur tr.name cr.name)).2⟩ : Compiled) ∈
        compileTable cur tr := by
    refine List.mem_filterMap.mpr ⟨cr, List.mem_of_find?_eq_some hc, ?_⟩
    dsimp only
    rw [if_neg hne]
  exact mem_tableCommands_of_mem hmem hcmd

/-- The rules of an override chain that the kernel does not have are meant to be written. -/
theorem mem_intended_override {ipt : Ipt} {cur : Tables} {t c : Bytes} {rules : List Rule}
    (hf : findChain ipt t c = some (.override rules)) (hcur : chainOf cur t c ≠ some rules) :
    .command t (str "-F") c [] ∈ intended ipt cur ∧
      ∀ r ∈ rules, .command t (str "-A") c r ∈ intended ipt cur := by
  have hcompile : ((Chain.override rules).compile c (chainOf cur t c)).1 =
      ⟨.flush, c, 0, []⟩ :: rules.map fun r => ⟨.append, c, 0, r⟩ := if_neg hcur
  constructor
  · have hflush : (⟨.flush, c, 0, []⟩ : Command) ∈
        ((Chain.override rules).compile c (chainOf cur t c)).1 := by
      rw [hcompile]
      exact List.mem_cons_self ..
    exact mem_intended hf hflush
  · intro r hr
    have happend : (⟨.append, c, 0, r⟩ : Command) ∈
        ((Chain.override rules).compile c (chainOf cur t c)).1 := by
      rw [hcompile]
      exact List.mem_cons_of_mem _ (List.mem_map_of_mem hr)
    exact mem_intended hf happend

end MagiTrickle.Iptables
