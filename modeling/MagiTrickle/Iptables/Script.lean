import MagiTrickle.Iptables.Fake
import MagiTrickle.Lib.Keyed

/-!
# Scripts

Both the listing and the transcript are blocks of lines, one for each table. A
`Block` is such a block without its text, `Block.text` prints it, and reading
the text back runs the block's commands: `fakeRestore_blocks` for the fake
executable, `getCurrentRules_blocks` for the listing parser. The commands form
a `Keyed.Machine` whose cells are the chains (`machine`).
-/

namespace MagiTrickle.Iptables

open MagiTrickle.Lib

/-! ## Commands on chains -/

inductive Op where
  | declare
  | append (r : Rule)
  | insert (pos : Int) (r : Rule)
  | delete (r : Rule)
  | flush
  | drop
  deriving DecidableEq, Repr

/-- The effect on the rules of the chain, `none` when there is no such chain. -/
def Op.act : Op → Option (List Rule) → Except Err (Option (List Rule))
  | declare, v => .ok (some (v.getD []))
  | append r, v => .ok (some (v.getD [] ++ [r]))
  | insert pos r, v =>
    if pos < 1 then .error .proto
    else .ok (some ((v.getD []).insertIdx (min (pos.toNat - 1) (v.getD []).length) r))
  | delete _, none => .error .noent
  | delete r, some l => if r ∈ l then .ok (some (l.erase r)) else .error .noent
  | flush, _ => .ok (some [])
  | drop, none => .ok none
  | drop, some l => if l ≠ [] then .error .state else .ok none

inductive Cmd where
  | enter (table : Bytes)
  | on (table chain : Bytes) (op : Op)
  deriving DecidableEq, Repr

def execOp (ts : Tables) (t c : Bytes) : Op → Except Err Tables
  | .declare => .ok (setChain ts t c id)
  | .append r => .ok (setChain ts t c (· ++ [r]))
  | .insert pos r =>
    if pos < 1 then .error .proto
    else .ok (setChain ts t c fun l => l.insertIdx (min (pos.toNat - 1) l.length) r)
  | .delete r =>
    match chainOf ts t c with
    | none => .error .noent
    | some l => if r ∈ l then .ok (setChain ts t c (·.erase r)) else .error .noent
  | .flush => .ok (setChain ts t c fun _ => [])
  | .drop =>
    match chainOf ts t c with
    | none => .ok ts
    | some l => if l ≠ [] then .error .state else .ok (dropChain ts t c)

def execCmd (ts : Tables) : Cmd → Except Err Tables
  | .enter t => .ok (openTable ts t)
  | .on t c op => execOp ts t c op

/-- The rule of an operation is made of words, and an insert position is a positive `int`. -/
def Op.Clean : Op → Prop
  | append r => ∀ p ∈ r, IsToken p
  | insert pos r => (1 ≤ pos ∧ pos < 2 ^ 31) ∧ ∀ p ∈ r, IsToken p
  | delete r => ∀ p ∈ r, IsToken p
  | _ => True

def Cmd.Clean : Cmd → Prop
  | enter t => IsToken t
  | on t c op => IsToken t ∧ IsToken c ∧ op.Clean

theorem keepsWords_append {r : Rule} (hr : ∀ p ∈ r, IsToken p) : KeepsWords (· ++ [r]) := by
  intro l hl x hx
  rcases List.mem_append.mp hx with hx | hx
  · exact hl x hx
  · rw [List.mem_singleton.mp hx]
    exact hr

theorem keepsWords_insertIdx {r : Rule} (hr : ∀ p ∈ r, IsToken p) (i : List Rule → Nat) :
    KeepsWords fun l => l.insertIdx (i l) r := by
  intro l hl x hx
  rcases List.eq_or_mem_of_mem_insertIdx hx with rfl | hx
  · exact hr
  · exact hl x hx

/-- A command succeeds exactly as its operation does on the chain, and changes that chain only. -/
theorem execOp_ok {ts : Tables} {t c : Bytes} {op : Op} {v : Option (List Rule)} (hts : ts.WF)
    (ht : IsToken t) (hc : IsToken c) (hop : op.Clean) (h : op.act (chainOf ts t c) = .ok v) :
    ∃ ts', execOp ts t c op = .ok ts' ∧ ts'.WF ∧ ∀ t' c', chainOf ts' t' c' =
      if t' = t ∧ c' = c then v else chainOf ts t' c' := by
  cases op with
  | declare =>
    cases h
    exact ⟨_, rfl, hts.setChain ht hc fun _ hl => hl, fun t' c' => chainOf_setChain ..⟩
  | append r =>
    cases h
    exact ⟨_, rfl, hts.setChain ht hc (keepsWords_append hop), fun t' c' => chainOf_setChain ..⟩
  | insert pos r =>
    have hpos : ¬ pos < 1 := not_lt.mpr hop.1.1
    rw [Op.act, if_neg hpos] at h
    cases h
    exact ⟨_, if_neg hpos, hts.setChain ht hc (keepsWords_insertIdx hop.2 _),
      fun t' c' => chainOf_setChain ..⟩
  | delete r =>
    cases hv : chainOf ts t c with
    | none => rw [hv] at h; cases h
    | some l =>
      rw [hv, Op.act] at h
      split at h
      · next hr =>
        cases h
        refine ⟨setChain ts t c (·.erase r), by simp [execOp, hv, hr],
          hts.setChain ht hc fun l hl x hx => hl x (List.mem_of_mem_erase hx), fun t' c' => ?_⟩
        rw [chainOf_setChain, hv]
        rfl
      · cases h
  | flush =>
    cases h
    exact ⟨_, rfl, hts.setChain ht hc fun _ _ x hx => absurd hx List.not_mem_nil,
      fun t' c' => chainOf_setChain ..⟩
  | drop =>
    cases hv : chainOf ts t c with
    | none =>
      rw [hv] at h
      cases h
      refine ⟨ts, by simp [execOp, hv], hts, fun t' c' => ?_⟩
      split
      · next hk => rw [hk.1, hk.2, hv]
      · rfl
    | some l =>
      rw [hv, Op.act] at h
      split at h
      · cases h
      · next hl =>
        cases h
        exact ⟨dropChain ts t c, by simp [execOp, hv, hl], hts.dropChain ht,
          fun t' c' => chainOf_dropChain hts ..⟩

def Cmd.key : Cmd → Bytes × Bytes
  | enter t => (t, [])
  | on t c _ => (t, c)

/-- Entering a table changes no chain. -/
def Cmd.act : Cmd → Option (List Rule) → Except Err (Option (List Rule))
  | enter _, v => .ok v
  | on _ _ op, v => op.act v

def machine : Keyed.Machine Tables (Bytes × Bytes) (Option (List Rule)) Cmd Err where
  view ts k := chainOf ts k.1 k.2
  Inv := Tables.WF
  Good := Cmd.Clean
  exec := execCmd
  key := Cmd.key
  act := Cmd.act
  exec_ok ts cmd v hts hcmd h := by
    cases cmd with
    | enter t =>
      cases h
      refine ⟨openTable ts t, rfl, hts.openTable hcmd, fun k => ?_⟩
      rw [chainOf_openTable]
      by_cases hk : k = (t, [])
      · subst hk
        exact (if_pos rfl).symm
      · exact (if_neg hk).symm
    | on t c op =>
      obtain ⟨ts', hexec, hwf, hview⟩ := execOp_ok hts hcmd.1 hcmd.2.1 hcmd.2.2 h
      refine ⟨ts', hexec, hwf, fun k => ?_⟩
      simp only [hview, Cmd.key, Prod.ext_iff]

/-! ## Text -/

/-- The part of a script under one table. -/
structure Block where
  table : Bytes
  ops : List (Bytes × Op)
  deriving DecidableEq, Repr

def opLine (c : Bytes) : Op → Bytes
  | .declare => 58 :: c ++ str " - [0:0]"
  | .append r => Words.unwords 32 (str "-A" :: c :: r)
  | .insert pos r => Words.unwords 32 (str "-I" :: c :: Libc.formatInt pos :: r)
  | .delete r => Words.unwords 32 (str "-D" :: c :: r)
  | .flush => Words.unwords 32 [str "-F", c]
  | .drop => Words.unwords 32 [str "-X", c]

namespace Block

def lines (b : Block) : List Bytes :=
  (42 :: b.table) :: b.ops.map (fun o => opLine o.1 o.2) ++ [str "COMMIT"]

def text (b : Block) : Bytes := b.lines.flatMap (· ++ [10])

def cmds (b : Block) : List Cmd := .enter b.table :: b.ops.map fun o => .on b.table o.1 o.2

def Clean (b : Block) : Prop := ∀ cmd ∈ b.cmds, cmd.Clean

end Block

section Words

variable {c : Bytes} {r : Rule}

theorem isWord_op (s : String) (h : Words.IsWord isBlank (str s)) (hc : IsToken c)
    (hr : ∀ p ∈ r, IsToken p) : ∀ w ∈ str s :: c :: r, Words.IsWord isBlank w := by
  intro w hw
  rcases List.mem_cons.mp hw with rfl | hw
  · exact h
  · rcases List.mem_cons.mp hw with rfl | hw
    · exact hc.1
    · exact (hr w hw).1

theorem splitFields_op (s : String) (h : Words.IsWord isBlank (str s)) (hc : IsToken c)
    (hr : ∀ p ∈ r, IsToken p) :
    splitFields (Words.unwords 32 (str s :: c :: r)) = str s :: c :: r :=
  Words.fields_unwords (by decide) _ (isWord_op s h hc hr)

theorem isToken_formatInt {pos : Int} (h : 0 ≤ pos) : IsToken (Libc.formatInt pos) := by
  have hfmt : Libc.formatInt pos = Libc.digits pos.natAbs := if_neg (by omega)
  have hdig : ∀ x ∈ Libc.digits pos.natAbs, isBlank x = false ∧ x ≠ 10 := by
    intro x hx
    have hx := Libc.isDigit_digits _ x hx
    simp only [Libc.isDigit, isBlank, decide_eq_true_eq, decide_eq_false_iff_not, ne_eq,
      UInt8.le_iff_toNat_le, ← UInt8.toNat_inj] at hx ⊢
    simp only [UInt8.reduceToNat] at hx ⊢
    omega
  rw [hfmt]
  exact ⟨⟨Libc.digits_ne_nil _, fun x hx => (hdig x hx).1⟩, fun hx => (hdig 10 hx).2 rfl⟩

theorem strtol_take_formatInt {pos : Int} (h : 1 ≤ pos ∧ pos < 2 ^ 31) :
    Libc.strtol ((Libc.formatInt pos).take 31) = some (pos, []) := by
  have hfmt : Libc.formatInt pos = Libc.digits pos.natAbs := if_neg (by omega)
  have hlen : (Libc.formatInt pos).length ≤ 31 := by
    rw [hfmt]
    exact Libc.length_digits_le (by decide) (by omega)
  rw [List.take_of_length_le hlen]
  exact Libc.strtol_formatInt (by omega)

end Words

/-! ## The operations on one chain -/

def Block.opsOf (b : Block) (c : Bytes) : List Op := (b.ops.filter fun o => o.1 = c).map Prod.snd

def runOps (os : List Op) (v : Option (List Rule)) : Except Err (Option (List Rule)) :=
  os.foldlM (fun v o => o.act v) v

@[simp] theorem runOps_nil (v : Option (List Rule)) : runOps [] v = .ok v := rfl

theorem runOps_cons (o : Op) (os : List Op) (v : Option (List Rule)) :
    runOps (o :: os) v = (o.act v).bind (runOps os) := rfl

theorem runOps_append (os os' : List Op) (v : Option (List Rule)) :
    runOps (os ++ os') v = (runOps os v).bind (runOps os') := List.foldlM_append

theorem runOps_appends (rs l : List Rule) : runOps (rs.map .append) (some l) = .ok (some (l ++ rs)) := by
  induction rs generalizing l with
  | nil => simp
  | cons r rs ih =>
    rw [List.map_cons, runOps_cons]
    show runOps (rs.map .append) (some (l ++ [r])) = _
    rw [ih, List.append_assoc, List.singleton_append]

def Cmd.opAt (t c : Bytes) : Cmd → Option Op
  | enter _ => none
  | on t' c' op => if t' = t ∧ c' = c then some op else none

def opsAt (cmds : List Cmd) (t c : Bytes) : List Op := cmds.filterMap (Cmd.opAt t c)

/-- The commands on a chain run as its operations; entering a table does nothing, even to a chain
with an empty name. -/
theorem cell_eq_runOps (cmds : List Cmd) (t c : Bytes) (v : Option (List Rule)) :
    machine.cell cmds (t, c) v = runOps (opsAt cmds t c) v := by
  unfold Keyed.Machine.cell opsAt
  induction cmds generalizing v with
  | nil => rfl
  | cons cmd cmds ih =>
    rw [List.filter_cons, List.filterMap_cons]
    cases cmd with
    | enter t' =>
      simp only [Cmd.opAt]
      split
      · rw [List.foldlM_cons]
        exact ih v
      · exact ih v
    | on t' c' op =>
      by_cases hk : t' = t ∧ c' = c
      · rw [if_pos (by simp [machine, Cmd.key, hk]), Cmd.opAt, if_pos hk, List.foldlM_cons,
          runOps_cons]
        exact bind_congr ih
      · rw [if_neg (by simpa [machine, Cmd.key, Prod.ext_iff] using hk), Cmd.opAt, if_neg hk]
        exact ih v

theorem opsAt_append (xs ys : List Cmd) (t c : Bytes) :
    opsAt (xs ++ ys) t c = opsAt xs t c ++ opsAt ys t c := List.filterMap_append

theorem opsAt_eq_nil {cmds : List Cmd} {t c : Bytes} (h : ∀ cmd ∈ cmds, cmd.key.1 ≠ t) :
    opsAt cmds t c = [] := by
  rw [opsAt, List.filterMap_eq_nil_iff]
  intro cmd hcmd
  cases cmd with
  | enter t' => rfl
  | on t' c' op => exact if_neg fun hk => h _ hcmd hk.1

theorem Block.opsAt_cmds (b : Block) (c : Bytes) : opsAt b.cmds b.table c = b.opsOf c := by
  show (b.ops.map fun o => Cmd.on b.table o.1 o.2).filterMap _ = (b.ops.filter _).map _
  rw [List.filterMap_map]
  induction b.ops with
  | nil => rfl
  | cons o os ih =>
    rw [List.filterMap_cons, List.filter_cons, ih]
    by_cases hc : o.1 = c
    · simp [Cmd.opAt, hc]
    · simp [Cmd.opAt, hc]

theorem Block.key_cmds {b : Block} {cmd : Cmd} (h : cmd ∈ b.cmds) : cmd.key.1 = b.table := by
  rcases List.mem_cons.mp h with rfl | h
  · rfl
  · obtain ⟨o, -, rfl⟩ := List.mem_map.mp h
    rfl

theorem opsAt_of_not_mem {bs : List Block} {t : Bytes} (h : ∀ b ∈ bs, b.table ≠ t) (c : Bytes) :
    opsAt (bs.flatMap Block.cmds) t c = [] := by
  refine opsAt_eq_nil fun cmd hcmd htable => ?_
  obtain ⟨b, hb, hcmd⟩ := List.mem_flatMap.mp hcmd
  exact h b hb (by rw [← Block.key_cmds hcmd, htable])

theorem opsAt_of_mem {bs : List Block} (hnd : (bs.map Block.table).Nodup) {b : Block} (hb : b ∈ bs)
    (c : Bytes) : opsAt (bs.flatMap Block.cmds) b.table c = b.opsOf c := by
  induction bs with
  | nil => exact absurd hb List.not_mem_nil
  | cons b' bs ih =>
    rw [List.map_cons, List.nodup_cons] at hnd
    rw [List.flatMap_cons, opsAt_append]
    rcases List.mem_cons.mp hb with rfl | hb
    · rw [Block.opsAt_cmds, opsAt_of_not_mem, List.append_nil]
      exact fun x hx htable => hnd.1 (htable ▸ List.mem_map_of_mem hx)
    · rw [ih hnd.2 hb, opsAt_eq_nil, List.nil_append]
      intro cmd hcmd htable
      rw [Block.key_cmds hcmd] at htable
      exact hnd.1 (htable ▸ List.mem_map_of_mem hb)

theorem cell_of_mem {bs : List Block} (hnd : (bs.map Block.table).Nodup) {b : Block} (hb : b ∈ bs)
    (c : Bytes) (v : Option (List Rule)) :
    machine.cell (bs.flatMap Block.cmds) (b.table, c) v = runOps (b.opsOf c) v := by
  rw [cell_eq_runOps, opsAt_of_mem hnd hb]

theorem cell_of_not_mem {bs : List Block} {t : Bytes} (h : ∀ b ∈ bs, b.table ≠ t) (c : Bytes)
    (v : Option (List Rule)) : machine.cell (bs.flatMap Block.cmds) (t, c) v = .ok v := by
  rw [cell_eq_runOps, opsAt_of_not_mem h]
  rfl

/-! ## Reading lines -/

section Lines

variable {ts : Tables} {t c : Bytes} {op : Op}

theorem restoreLine_command {line rest name : Bytes} {parts : List Bytes}
    (hline : line = 45 :: rest) {w : Bytes} (hf : splitFields line = w :: name :: parts)
    (hw : 2 ≤ w.length) :
    restoreLine ⟨ts, some t⟩ line =
      (restoreCommand ts t w name parts).map fun ts' => ⟨ts', some t⟩ := by
  subst hline
  simp only [restoreLine, hf, if_neg (Nat.not_lt.mpr hw)]

theorem splitFields_declare (hc : IsToken c) :
    splitFields (c ++ str " - [0:0]") = c :: splitFields (str "- [0:0]") :=
  Words.fields_append_sep hc.1 (by decide) _

/-- The fake executable runs an operation line as its operation. -/
theorem restoreLine_opLine (hc : IsToken c) (hop : op.Clean) :
    restoreLine ⟨ts, some t⟩ (opLine c op) = (execOp ts t c op).map fun ts' => ⟨ts', some t⟩ := by
  cases op with
  | declare =>
    rw [opLine, List.cons_append]
    simp only [restoreLine, splitFields_declare hc]
    rfl
  | append r =>
    rw [opLine, restoreLine_command (by rw [Words.unwords_cons_cons]; rfl)
      (splitFields_op "-A" (by decide) hc hop) (by decide)]
    rfl
  | insert pos r =>
    have hr : ∀ p ∈ Libc.formatInt pos :: r, IsToken p := by
      intro p hp
      rcases List.mem_cons.mp hp with rfl | hp
      · exact isToken_formatInt (by have := hop.1.1; omega)
      · exact hop.2 p hp
    rw [opLine, restoreLine_command (by rw [Words.unwords_cons_cons]; rfl)
      (splitFields_op "-I" (by decide) hc hr) (by decide)]
    have hchar : (str "-I")[1]? = some 73 := rfl
    simp only [restoreCommand, hchar, strtol_take_formatInt hop.1]
    rfl
  | delete r =>
    rw [opLine, restoreLine_command (by rw [Words.unwords_cons_cons]; rfl)
      (splitFields_op "-D" (by decide) hc hop) (by decide)]
    rfl
  | flush =>
    rw [opLine, restoreLine_command (by rw [Words.unwords_cons_cons]; rfl)
      (splitFields_op "-F" (by decide) hc (by simp)) (by decide)]
    rfl
  | drop =>
    rw [opLine, restoreLine_command (by rw [Words.unwords_cons_cons]; rfl)
      (splitFields_op "-X" (by decide) hc (by simp)) (by decide)]
    rfl

/-- A line of a listing: a declaration or a rule. -/
def Op.Listed : Op → Prop
  | .declare | .append _ => True
  | _ => False

/-- The listing parser runs a listing line as its operation. -/
theorem listingLine_opLine (hc : IsToken c) (hop : op.Clean) (hl : op.Listed) :
    listingLine ⟨ts, some t⟩ (opLine c op) = (execOp ts t c op).map fun ts' => ⟨ts', some t⟩ := by
  cases op with
  | declare =>
    have htake : (c ++ str " - [0:0]").takeWhile (· ≠ 32) = c := by
      have hall : ∀ x ∈ c, decide (x ≠ 32) = true := by
        intro x hx
        have := hc.1.2 x hx
        simp only [isBlank, decide_eq_false_iff_not, not_or] at this
        simpa using this.1
      rw [show str " - [0:0]" = 32 :: str "- [0:0]" from rfl, List.takeWhile_append_of_pos hall,
        List.takeWhile_cons_of_neg (by simp), List.append_nil]
    show (if (c ++ str " - [0:0]").takeWhile (· ≠ 32) = [] then Except.error Err.proto
      else .ok (⟨setChain ts t ((c ++ str " - [0:0]").takeWhile (· ≠ 32)) id, some t⟩ :
        ListingState)) = _
    rw [htake, if_neg hc.1.1]
    rfl
  | append r =>
    have hf := splitFields_op "-A" (by decide) hc hop
    rw [Words.unwords_cons_cons] at hf
    rw [opLine, Words.unwords_cons_cons]
    rw [show str "-A" = 45 :: [65] from rfl, List.cons_append] at hf ⊢
    simp only [listingLine, hf]
    rfl
  | _ => exact hl.elim

end Lines

/-! ## Reading blocks -/

theorem not_mem_unwords {ws : List Bytes} (h : ∀ w ∈ ws, (10 : UInt8) ∉ w) :
    (10 : UInt8) ∉ Words.unwords 32 ws := by
  intro hmem
  rcases Words.mem_unwords hmem with h' | ⟨w, hw, h'⟩
  · exact absurd h' (by decide)
  · exact h w hw h'

theorem not_mem_opLine {c : Bytes} {op : Op} (hc : IsToken c) (hop : op.Clean) :
    (10 : UInt8) ∉ opLine c op := by
  have hop1 : ∀ w : Bytes, (10 : UInt8) ∉ w → ∀ r : Rule, (∀ p ∈ r, IsToken p) →
      (10 : UInt8) ∉ Words.unwords 32 (w :: c :: r) := by
    intro w hw r hr
    apply not_mem_unwords
    intro v hv
    rcases List.mem_cons.mp hv with rfl | hv
    · exact hw
    · rcases List.mem_cons.mp hv with rfl | hv
      · exact hc.2
      · exact (hr v hv).2
  cases op with
  | declare =>
    have : (10 : UInt8) ∉ str " - [0:0]" := by decide
    simp only [opLine, List.cons_append, List.mem_cons, List.mem_append, not_or]
    exact ⟨by decide, hc.2, this⟩
  | append r => exact hop1 _ (by decide) r hop
  | insert pos r =>
    refine hop1 _ (by decide) (Libc.formatInt pos :: r) fun p hp => ?_
    rcases List.mem_cons.mp hp with rfl | hp
    · exact isToken_formatInt (by have := hop.1.1; omega)
    · exact hop.2 p hp
  | delete r => exact hop1 _ (by decide) r hop
  | flush => exact hop1 _ (by decide) [] (by simp)
  | drop => exact hop1 _ (by decide) [] (by simp)

theorem Block.not_mem_lines {b : Block} (hb : b.Clean) : ∀ l ∈ b.lines, (10 : UInt8) ∉ l := by
  intro l hl
  simp only [lines, List.cons_append, List.mem_cons, List.mem_append, List.mem_map,
    List.not_mem_nil, or_false] at hl
  rcases hl with rfl | ⟨o, ho, rfl⟩ | rfl
  · have ht : IsToken b.table := hb (.enter b.table) (List.mem_cons_self ..)
    exact fun h => (List.mem_cons.mp h).elim (by decide) ht.2
  · have := hb (.on b.table o.1 o.2) (List.mem_cons_of_mem _ (List.mem_map_of_mem ho))
    exact not_mem_opLine this.2.1 this.2.2
  · decide

/-- A reader of lines runs the operations in `P` as `execOp` does. -/
structure Reads (read : ListingState → Bytes → Except Err ListingState) (P : Op → Prop) : Prop where
  blank : ∀ st, read st [] = .ok st
  table : ∀ st t, read st (42 :: t) = .ok ⟨openTable st.tables t, some t⟩
  finish : ∀ st, read st (str "COMMIT") = .ok { st with cur := none }
  op : ∀ ts t c op, IsToken c → op.Clean → P op →
    read ⟨ts, some t⟩ (opLine c op) = (execOp ts t c op).map fun ts' => ⟨ts', some t⟩

theorem reads_restoreLine : Reads restoreLine fun _ => True where
  blank _ := rfl
  table _ _ := rfl
  finish _ := rfl
  op _ _ _ _ hc hop _ := restoreLine_opLine hc hop

theorem reads_listingLine : Reads listingLine Op.Listed where
  blank _ := rfl
  table _ _ := rfl
  finish _ := rfl
  op _ _ _ _ hc hop hl := listingLine_opLine hc hop hl

section Reads

variable {read : ListingState → Bytes → Except Err ListingState} {P : Op → Prop}

theorem Reads.ops (h : Reads read P) (t : Bytes) (os : List (Bytes × Op))
    (hos : ∀ o ∈ os, IsToken o.1 ∧ o.2.Clean ∧ P o.2) (ts : Tables) :
    (os.map fun o => opLine o.1 o.2).foldlM read ⟨ts, some t⟩ =
      ((os.map fun o => Cmd.on t o.1 o.2).foldlM execCmd ts).map fun ts' => ⟨ts', some t⟩ := by
  induction os generalizing ts with
  | nil => rfl
  | cons o os ih =>
    obtain ⟨hc, hop, hP⟩ := hos o (List.mem_cons_self ..)
    simp only [List.map_cons, List.foldlM_cons, h.op ts t o.1 o.2 hc hop hP, execCmd]
    cases execOp ts t o.1 o.2 with
    | error e => rfl
    | ok ts' => exact ih (fun o ho => hos o (List.mem_cons_of_mem _ ho)) ts'

theorem Reads.block (h : Reads read P) (b : Block) (hb : b.Clean) (hP : ∀ o ∈ b.ops, P o.2)
    (ts : Tables) (cur : Option Bytes) :
    b.lines.foldlM read ⟨ts, cur⟩ = (b.cmds.foldlM execCmd ts).map fun ts' => ⟨ts', none⟩ := by
  have hops := h.ops b.table b.ops (fun o ho => by
    have := hb (.on b.table o.1 o.2) (List.mem_cons_of_mem _ (List.mem_map_of_mem ho))
    exact ⟨this.2.1, this.2.2, hP o ho⟩) (openTable ts b.table)
  rw [Block.lines, Block.cmds, List.cons_append, List.foldlM_cons, h.table, List.foldlM_cons]
  show List.foldlM read ⟨openTable ts b.table, some b.table⟩ _ =
    Except.map _ (List.foldlM execCmd (openTable ts b.table) _)
  rw [List.foldlM_append, hops]
  cases (b.ops.map fun o => Cmd.on b.table o.1 o.2).foldlM execCmd (openTable ts b.table) with
  | error e => rfl
  | ok ts' =>
    show List.foldlM read ⟨ts', some b.table⟩ [str "COMMIT"] = _
    rw [List.foldlM_cons, h.finish]
    rfl

theorem Reads.blockLines (h : Reads read P) (bs : List Block) (hbs : ∀ b ∈ bs, b.Clean)
    (hP : ∀ b ∈ bs, ∀ o ∈ b.ops, P o.2) (ts : Tables) :
    (bs.flatMap Block.lines).foldlM read ⟨ts, none⟩ =
      ((bs.flatMap Block.cmds).foldlM execCmd ts).map fun ts' => ⟨ts', none⟩ := by
  induction bs generalizing ts with
  | nil => rfl
  | cons b bs ih =>
    rw [List.flatMap_cons, List.flatMap_cons, List.foldlM_append, List.foldlM_append,
      h.block b (hbs b (List.mem_cons_self ..)) (hP b (List.mem_cons_self ..))]
    cases b.cmds.foldlM execCmd ts with
    | error e => rfl
    | ok ts' =>
      exact ih (fun b hb => hbs b (List.mem_cons_of_mem _ hb))
        (fun b hb => hP b (List.mem_cons_of_mem _ hb)) ts'

/-- Reading the text of blocks runs their commands. -/
theorem Reads.text (h : Reads read P) (bs : List Block) (hbs : ∀ b ∈ bs, b.Clean)
    (hP : ∀ b ∈ bs, ∀ o ∈ b.ops, P o.2) (ts : Tables) :
    (((bs.flatMap Block.text).splitOn 10).foldlM read ⟨ts, none⟩).map ListingState.tables =
      (bs.flatMap Block.cmds).foldlM execCmd ts := by
  have htext : bs.flatMap Block.text = (bs.flatMap Block.lines).flatMap (· ++ [10]) := by
    rw [List.flatMap_assoc]
    rfl
  rw [htext, Words.splitOn_terminated, List.foldlM_append, h.blockLines bs hbs hP ts]
  · cases (bs.flatMap Block.cmds).foldlM execCmd ts with
    | error e => rfl
    | ok ts' =>
      show Except.map _ (List.foldlM read ⟨ts', none⟩ [[]]) = _
      rw [List.foldlM_cons, h.blank]
      rfl
  · intro l hl
    obtain ⟨b, hb, hl⟩ := List.mem_flatMap.mp hl
    exact Block.not_mem_lines (hbs b hb) l hl

end Reads

/-- The fake executable runs the commands of a script. -/
theorem fakeRestore_blocks (bs : List Block) (hbs : ∀ b ∈ bs, b.Clean) (ts : Tables) :
    fakeRestore ts (bs.flatMap Block.text) = (bs.flatMap Block.cmds).foldlM execCmd ts :=
  reads_restoreLine.text bs hbs (fun _ _ _ _ => trivial) ts

/-- The listing parser collects the commands of a listing. -/
theorem getCurrentRules_blocks (bs : List Block) (hbs : ∀ b ∈ bs, b.Clean)
    (hl : ∀ b ∈ bs, ∀ o ∈ b.ops, o.2.Listed) :
    getCurrentRules (bs.flatMap Block.text) = (bs.flatMap Block.cmds).foldlM execCmd [] :=
  reads_listingLine.text bs hbs hl []

end MagiTrickle.Iptables
