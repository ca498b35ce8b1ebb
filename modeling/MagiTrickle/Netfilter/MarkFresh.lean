import MagiTrickle.Netfilter.MarkTable

/-!
# Numbers of groups are fresh

The loop of `mt_rtnl_alloc_mark_table` ends at a fixed number, and gives it back
without a look at it, as it does with a start index that is not below it. What
it gives is free if anything is that it could give (`allocMarkTable_iff`). A
group that is enabled shows in the next dump by its ip rule, which is there if
one of the families is in use; so numbers stay distinct (`markTable_exact`).
-/

namespace MagiTrickle.Netfilter

open Lib.FirstFree Lib.Runs

/-! ## Scans -/

/-- The number is in the sets. -/
def ScanCtx.Has (ctx : ScanCtx) (n : Nat) : Prop := n ∈ ctx.tables ∨ n ∈ ctx.marks

variable {ctx ctx' : ScanCtx} {n : Nat}

theorem mem_usedSetAdd {s : List Nat} {v : Nat} : n ∈ usedSetAdd s v ↔ n ∈ s ∨ v = n := by
  unfold usedSetAdd
  split_ifs with hmem
  · refine ⟨.inl, ?_⟩
    rintro (h | rfl)
    · exact h
    · exact hmem
  · rw [List.mem_append, List.mem_singleton, eq_comm]

theorem has_addMark {v : Nat} : (ctx.addMark v).Has n ↔ ctx.Has n ∨ v = n := by
  unfold ScanCtx.Has ScanCtx.addMark
  rw [mem_usedSetAdd, or_assoc]

theorem has_addTable {v : Nat} : (ctx.addTable v).Has n ↔ ctx.Has n ∨ v = n := by
  unfold ScanCtx.Has ScanCtx.addTable
  rw [mem_usedSetAdd, or_right_comm]

theorem has_foldl {α : Type} {f : ScanCtx → α → ScanCtx} {P : α → Prop}
    (h : ∀ ctx x, (f ctx x).Has n ↔ ctx.Has n ∨ P x) (xs : List α) :
    (xs.foldl f ctx).Has n ↔ ctx.Has n ∨ ∃ x ∈ xs, P x := by
  induction xs generalizing ctx with
  | nil => simp
  | cons x xs ih => rw [List.foldl_cons, ih, h, or_assoc, List.exists_mem_cons_iff]

theorem has_ruleScan (h : RtMsg) : (ruleScan ctx h).Has n ↔ ctx.Has n ∨ h.Uses .rules n := by
  unfold ruleScan
  by_cases htype : h.type = rtmNewRule
  · rw [if_neg (not_not.mpr htype)]
    refine (has_foldl (P := fun attr => (attr.type = fraFwmark ∨ attr.type = fraTable) ∧
      ∃ v ∈ attr.u32, v.toNat = n) (fun ctx attr => ?_) h.attrs).trans ?_
    · cases attr.u32 with
      | none => simp
      | some v =>
        dsimp only
        split_ifs with hmark htable
        · simp [has_addMark, hmark]
        · simp [has_addTable, htable]
        · simp [hmark, htable]
    · rw [has_addTable, or_assoc]
      simp only [RtMsg.Uses, htype, true_and]
  · rw [if_pos htype]
    simp only [RtMsg.Uses, htype, false_and, or_false]

theorem has_routeScan (h : RtMsg) : (routeScan ctx h).Has n ↔ ctx.Has n ∨ h.Uses .routes n := by
  unfold routeScan
  by_cases htype : h.type = rtmNewRoute
  · rw [if_neg (not_not.mpr htype)]
    refine (has_foldl (P := fun attr => attr.type = rtaTable ∧ ∃ v ∈ attr.u32, v.toNat = n)
      (fun ctx attr => ?_) h.attrs).trans ?_
    · cases attr.u32 with
      | none => simp
      | some v =>
        dsimp only
        split_ifs with htable
        · simp [has_addTable, htable]
        · simp [htable]
    · rw [has_addTable, or_assoc]
      simp only [RtMsg.Uses, htype, true_and]
  · rw [if_pos htype]
    simp only [RtMsg.Uses, htype, false_and, or_false]

variable {dump : Dump}

theorem has_dumpFamily {kind : DumpKind} {f : Family} (h : dumpFamily dump ctx kind f = .ok ctx') :
    ∃ msgs, dump kind f = .ok msgs ∧ (ctx'.Has n ↔ ctx.Has n ∨ ∃ h ∈ msgs, h.Uses kind n) := by
  unfold dumpFamily at h
  cases hdump : dump kind f with
  | error e =>
    rw [hdump] at h
    cases h
  | ok msgs =>
    rw [hdump] at h
    cases h
    refine ⟨msgs, rfl, ?_⟩
    cases kind with
    | rules => exact has_foldl (fun ctx h => has_ruleScan h) msgs
    | routes => exact has_foldl (fun ctx h => has_routeScan h) msgs

theorem has_reserved : ScanCtx.Has ⟨[], reservedTables.foldl usedSetAdd []⟩ n ↔
    n ∈ reservedTables := by
  have heq : reservedTables.foldl usedSetAdd [] = reservedTables := by decide
  rw [heq, ScanCtx.Has, or_iff_left (List.not_mem_nil)]

theorem allocMarkTable_ok {startIdx idx : UInt32} (h : allocMarkTable dump startIdx = .ok idx) :
    ∃ used : Nat → Bool, (∀ n, used n = false ↔ dump.Free n) ∧
      idx = .ofNat (firstFree used markLimit startIdx.toNat) := by
  unfold allocMarkTable at h
  obtain ⟨ctx₁, h₁, h⟩ := exists_of_bind_ok h
  obtain ⟨ctx₂, h₂, h⟩ := exists_of_bind_ok h
  obtain ⟨ctx₃, h₃, h⟩ := exists_of_bind_ok h
  obtain ⟨ctx₄, h₄, h⟩ := exists_of_bind_ok h
  cases h
  refine ⟨_, fun n => ?_, rfl⟩
  obtain ⟨msgs₁, hdump₁, hhas₁⟩ := @has_dumpFamily _ _ n _ _ _ h₁
  obtain ⟨msgs₂, hdump₂, hhas₂⟩ := @has_dumpFamily _ _ n _ _ _ h₂
  obtain ⟨msgs₃, hdump₃, hhas₃⟩ := @has_dumpFamily _ _ n _ _ _ h₃
  obtain ⟨msgs₄, hdump₄, hhas₄⟩ := @has_dumpFamily _ _ n _ _ _ h₄
  have hhas : ctx₄.Has n ↔ n ∈ reservedTables ∨ dump.Uses n := by
    rw [hhas₄, hhas₃, hhas₂, hhas₁, has_reserved]
    refine ⟨?_, ?_⟩
    · rintro ((((hres | huse) | huse) | huse) | huse)
      · exact .inl hres
      · exact .inr ⟨_, _, msgs₁, hdump₁, huse⟩
      · exact .inr ⟨_, _, msgs₂, hdump₂, huse⟩
      · exact .inr ⟨_, _, msgs₃, hdump₃, huse⟩
      · exact .inr ⟨_, _, msgs₄, hdump₄, huse⟩
    · rintro (hres | ⟨kind, f, msgs, hdump, huse⟩)
      · exact .inl (.inl (.inl (.inl hres)))
      · cases kind <;> cases f <;> simp_all
  rw [Dump.Free, ← not_or, ← hhas]
  exact decide_eq_false_iff_not

theorem exists_dump {startIdx idx : UInt32} (h : allocMarkTable dump startIdx = .ok idx)
    (kind : DumpKind) (f : Family) : ∃ msgs, dump kind f = .ok msgs := by
  unfold allocMarkTable at h
  obtain ⟨ctx₁, h₁, h⟩ := exists_of_bind_ok h
  obtain ⟨ctx₂, h₂, h⟩ := exists_of_bind_ok h
  obtain ⟨ctx₃, h₃, h⟩ := exists_of_bind_ok h
  obtain ⟨ctx₄, h₄, h⟩ := exists_of_bind_ok h
  have hok : ∀ {ctx ctx' kind f}, dumpFamily dump ctx kind f = .ok ctx' →
      ∃ msgs, dump kind f = .ok msgs := by
    intro ctx ctx' kind f hfamily
    obtain ⟨msgs, hmsgs, -⟩ := @has_dumpFamily _ _ 0 _ _ _ hfamily
    exact ⟨msgs, hmsgs⟩
  cases kind <;> cases f
  · exact hok h₁
  · exact hok h₂
  · exact hok h₃
  · exact hok h₄

theorem toNat_firstFree (used : Nat → Bool) (startIdx : UInt32) :
    (UInt32.ofNat (firstFree used markLimit startIdx.toNat)).toNat =
      firstFree used markLimit startIdx.toNat := by
  refine UInt32.toNat_ofNat_of_lt' ?_
  have hle := @firstFree_le used markLimit startIdx.toNat
  have hlt := startIdx.toNat_lt
  have hsize : UInt32.size = 2 ^ 32 := rfl
  unfold markLimit at *
  omega

/-- What is found before the end of the search is free. -/
theorem free_of_allocMarkTable {startIdx idx : UInt32}
    (h : allocMarkTable dump startIdx = .ok idx) (hlt : idx.toNat < markLimit) :
    dump.Free idx.toNat := by
  obtain ⟨used, hused, rfl⟩ := allocMarkTable_ok h
  rw [toNat_firstFree] at hlt ⊢
  exact (hused _).mp (used_firstFree hlt)

/-- Some number that the allocation could give is free. -/
def Dump.HasFree (dump : Dump) (startIdx : UInt32) : Prop :=
  ∃ n, startIdx.toNat ≤ n ∧ n ≤ max startIdx.toNat markLimit ∧ dump.Free n

theorem allocMarkTable_iff {startIdx idx : UInt32} (h : allocMarkTable dump startIdx = .ok idx) :
    startIdx ≤ idx ∧ dump.Free idx.toNat ↔ dump.HasFree startIdx := by
  obtain ⟨used, hused, rfl⟩ := allocMarkTable_ok h
  rw [UInt32.le_iff_toNat_le, toNat_firstFree, and_iff_right le_firstFree, ← hused, firstFree_iff]
  simp only [hused, Dump.HasFree]

/-! ## Groups -/

namespace MarkedGroups

variable {s : MarkedGroups} {ipt : Family → Bool} {a : Answers} {r r' : IpRule} {w w' : Work}

theorem uses_of_mem {errs : DumpKind → Family → Option Err} {f : Family} {m : UInt32}
    (hok : ∀ kind f, errs kind f = none) (h : ⟨m, m⟩ ∈ s.rules f) :
    (s.dump errs).Uses m.toNat := by
  refine ⟨.rules, f, (s.rules f).map IpRule.msg ++ s.others .rules f, ?_, IpRule.msg ⟨m, m⟩, ?_, ?_⟩
  · unfold dump
    rw [hok]
  · exact List.mem_append_left _ (List.mem_map_of_mem h)
  · exact ⟨rfl, .inr ⟨⟨fraTable, some m⟩, List.mem_cons_self, .inr rfl, m, rfl, rfl⟩⟩

theorem dump_ok {errs : DumpKind → Family → Option Err} {startIdx idx : UInt32}
    (h : allocMarkTable (s.dump errs) startIdx = .ok idx) (kind : DumpKind) (f : Family) :
    errs kind f = none := by
  obtain ⟨msgs, hmsgs⟩ := exists_dump h kind f
  unfold dump at hmsgs
  cases herr : errs kind f with
  | none => rfl
  | some e =>
    rw [herr] at hmsgs
    cases hmsgs

/-- Work on one rule leaves the others. -/
def KeepsOthers (r : IpRule) (w w' : Work) : Prop :=
  ∀ f, ∀ r' ≠ r, r' ∈ w'.rules f ↔ r' ∈ w.rules f

theorem mem_update {f g : Family} {l : List IpRule} (h : r' ∈ l ↔ r' ∈ w.rules f) :
    r' ∈ Function.update w.rules f l g ↔ r' ∈ w.rules g := by
  by_cases hg : g = f
  · subst hg
    rw [Function.update_self, h]
  · rw [Function.update_of_ne hg]

theorem keepsOthers_insertFamily (f : Family) : KeepsOthers r w (insertFamily ipt a r w f).1 := by
  intro g r' hne
  have herase : r' ∈ (if a.del f then w.rules f else (w.rules f).erase r) ↔ r' ∈ w.rules f := by
    split_ifs
    · rfl
    · exact List.mem_erase_of_ne hne
  unfold insertFamily
  by_cases hipt : ipt f
  · rw [if_pos hipt]
    dsimp only
    generalize (if a.del f then w.rules f else (w.rules f).erase r) = rules at herase ⊢
    cases a.add f with
    | some e => exact mem_update herase
    | none =>
      dsimp only
      by_cases hmem : r ∈ rules
      · rw [if_pos hmem]
        exact mem_update herase
      · rw [if_neg hmem]
        show r' ∈ Function.update (Function.update w.rules f rules) f (rules ++ [r]) g ↔ _
        rw [Function.update_idem]
        refine mem_update ?_
        rw [List.mem_append, List.mem_singleton, or_iff_left hne]
        exact herase
  · rw [if_neg hipt]

theorem keepsOthers_insertIpRule : KeepsOthers r w (insertIpRule ipt a r w).1 := by
  refine untilErr_inv (I := KeepsOthers r w) (fun w' f _ h g r' hne => ?_) fun g r' hne => Iff.rfl
  exact (keepsOthers_insertFamily f g r' hne).trans (h g r' hne)

theorem keepsOthers_deleteIpRule {undo : Family → Bool} :
    KeepsOthers r w (deleteIpRule undo r w) := by
  intro f r' hne
  unfold deleteIpRule
  dsimp only
  split_ifs
  · exact List.mem_erase_of_ne hne
  · rfl

theorem mem_insertFamily {f : Family} (hipt : ipt f) (h : (insertFamily ipt a r w f).2 = none) :
    r ∈ (insertFamily ipt a r w f).1.rules f := by
  unfold insertFamily at h ⊢
  rw [if_pos hipt] at h ⊢
  dsimp only at h ⊢
  generalize (if a.del f then w.rules f else (w.rules f).erase r) = rules at h ⊢
  cases hadd : a.add f with
  | some e =>
    rw [hadd] at h
    cases h
  | none =>
    rw [hadd] at h
    dsimp only at h ⊢
    by_cases hmem : r ∈ rules
    · rw [if_pos hmem] at h
      cases h
    · rw [if_neg hmem]
      show r ∈ Function.update (Function.update w.rules f rules) f (rules ++ [r]) f
      rw [Function.update_self]
      exact List.mem_append_right _ (List.mem_singleton.mpr rfl)

theorem rules_insertFamily_of_ne {f g : Family} (h : g ≠ f) :
    (insertFamily ipt a r w f).1.rules g = w.rules g := by
  unfold insertFamily
  by_cases hipt : ipt f
  · rw [if_pos hipt]
    dsimp only
    generalize (if a.del f then w.rules f else (w.rules f).erase r) = rules
    cases a.add f with
    | some e => exact Function.update_of_ne h _ _
    | none =>
      dsimp only
      split_ifs
      · exact Function.update_of_ne h _ _
      · show Function.update (Function.update w.rules f rules) f (rules ++ [r]) g = _
        rw [Function.update_idem]
        exact Function.update_of_ne h _ _
  · rw [if_neg hipt]

theorem mem_insertIpRule {f : Family} (hipt : ipt f) (h : (insertIpRule ipt a r w).2 = none) :
    r ∈ (insertIpRule ipt a r w).1.rules f := by
  unfold insertIpRule untilErr at h ⊢
  rcases h₄ : insertFamily ipt a r w .v4 with ⟨w₄, _ | e⟩
  · rw [h₄] at h
    dsimp only at h ⊢
    unfold untilErr at h ⊢
    rcases h₆ : insertFamily ipt a r w₄ .v6 with ⟨w₆, _ | e⟩
    · dsimp only
      rw [untilErr]
      cases f with
      | v4 =>
        have hmem := @mem_insertFamily ipt a r w .v4 hipt (by rw [h₄])
        have hkeep := @rules_insertFamily_of_ne ipt a r w₄ .v6 .v4 (by decide)
        rw [h₄] at hmem
        rw [h₆] at hkeep
        rw [hkeep]
        exact hmem
      | v6 =>
        have hmem := @mem_insertFamily ipt a r w₄ .v6 hipt (by rw [h₆])
        rw [h₆] at hmem
        exact hmem
    · rw [h₆] at h
      cases h
  · rw [h₄] at h
    cases h

/-! ## Runs -/

def Shown (s : MarkedGroups) : Prop :=
  ∀ (i : Nat) (l : MarkedLink), s.groups[i]? = some (some l) →
    ∃ f, s.ipt f ∧ ⟨l.mark, l.mark⟩ ∈ s.rules f

/-- One of the families is in use, and there is a free number for a group that is enabled. -/
def Admits (s : MarkedGroups) : Event → Prop
  | .enable _ a => (∃ f, s.ipt f) ∧ (s.dump a.dump).HasFree s.startIdx
  | _ => True

/-- What the rules keep that are not one of a number, groups keep that have another one. -/
theorem shown_of_keeps {rules : Family → List IpRule} {m : UInt32} (hs : s.Shown)
    (hkeep : ∀ f, ∀ r' ≠ ⟨m, m⟩, r' ∈ rules f ↔ r' ∈ s.rules f) {i : Nat} {l : MarkedLink}
    (hl : s.groups[i]? = some (some l)) (hne : l.mark ≠ m) :
    ∃ f, s.ipt f ∧ ⟨l.mark, l.mark⟩ ∈ rules f := by
  obtain ⟨f, hipt, hmem⟩ := hs i l hl
  exact ⟨f, hipt, (hkeep f _ fun heq => hne (congrArg IpRule.mark heq)).mpr hmem⟩

/-- A free number is none of an enabled group. -/
theorem ne_of_free {errs : DumpKind → Family → Option Err} {m : UInt32} (hs : s.Shown)
    (hok : ∀ kind f, errs kind f = none) (hfree : (s.dump errs).Free m.toNat) {i : Nat}
    {l : MarkedLink} (hl : s.groups[i]? = some (some l)) : l.mark ≠ m := by
  rintro rfl
  obtain ⟨f, -, hmem⟩ := hs i l hl
  exact hfree.2 (uses_of_mem hok hmem)

/-- The rules of a number that no enabled group has come and go. -/
theorem invariant_of_keeps {rules : Family → List IpRule} {m : UInt32} (hs : s.Shown ∧ s.Distinct)
    (hkeep : ∀ f, ∀ r' ≠ ⟨m, m⟩, r' ∈ rules f ↔ r' ∈ s.rules f)
    (hne : ∀ (i : Nat) (l : MarkedLink), s.groups[i]? = some (some l) → l.mark ≠ m) :
    ({ s with rules := rules } : MarkedGroups).Shown ∧
      ({ s with rules := rules } : MarkedGroups).Distinct :=
  ⟨fun i l hl => shown_of_keeps hs.1 hkeep hl (hne i l hl), hs.2⟩

theorem getElem?_set_some {α : Type} {l : List α} {i j : Nat} {x y : α}
    (h : (l.set i x)[j]? = some y) : i = j ∧ y = x ∨ i ≠ j ∧ l[j]? = some y := by
  rw [List.getElem?_set] at h
  split_ifs at h with hij hlt
  · exact .inl ⟨hij, (Option.some.inj h).symm⟩
  · exact .inr ⟨hij, h⟩

/-- A group is enabled with a number that no other one has. -/
theorem invariant_enabled {rules : Family → List IpRule} {m : UInt32} {added : Family → Bool}
    (hs : s.Shown ∧ s.Distinct) (i : Nat)
    (hkeep : ∀ f, ∀ r' ≠ ⟨m, m⟩, r' ∈ rules f ↔ r' ∈ s.rules f)
    (hne : ∀ (i : Nat) (l : MarkedLink), s.groups[i]? = some (some l) → l.mark ≠ m)
    (hshown : ∃ f, s.ipt f ∧ ⟨m, m⟩ ∈ rules f) :
    ({ s with rules := rules, groups := s.groups.set i (some ⟨m, added⟩) } : MarkedGroups).Shown ∧
      ({ s with rules := rules, groups := s.groups.set i (some ⟨m, added⟩) } :
        MarkedGroups).Distinct := by
  refine ⟨fun j l hl => ?_, fun j k l l' hl hl' hjk => ?_⟩
  · rcases getElem?_set_some hl with ⟨-, heq⟩ | ⟨-, hl⟩
    · obtain rfl := Option.some.inj heq
      exact hshown
    · exact shown_of_keeps hs.1 hkeep hl (hne j l hl)
  · rcases getElem?_set_some hl with ⟨hj, heq⟩ | ⟨-, hl⟩
    · obtain rfl := Option.some.inj heq
      rcases getElem?_set_some hl' with ⟨hk, -⟩ | ⟨-, hl'⟩
      · exact absurd (hj.symm.trans hk) hjk
      · exact (hne k l' hl').symm
    · rcases getElem?_set_some hl' with ⟨-, heq⟩ | ⟨-, hl'⟩
      · obtain rfl := Option.some.inj heq
        exact hne j l hl
      · exact hs.2 j k l l' hl hl' hjk

theorem enable_keeps (hs : s.Shown ∧ s.Distinct) (i : Nat) (hadmits : s.Admits (.enable i a)) :
    (s.enable i a).Shown ∧ (s.enable i a).Distinct := by
  unfold enable
  split
  · cases halloc : allocMarkTable (s.dump a.dump) s.startIdx with
    | error e => exact hs
    | ok idx =>
      have hfree := ((allocMarkTable_iff halloc).mpr hadmits.2).2
      have hne : ∀ (i : Nat) (l : MarkedLink), s.groups[i]? = some (some l) → l.mark ≠ idx :=
        fun i l hl => ne_of_free hs.1 (dump_ok halloc) hfree hl
      have hinsert := @keepsOthers_insertIpRule s.ipt a ⟨idx, idx⟩ ⟨s.rules, fun _ => false⟩
      have hthere := fun f => @mem_insertIpRule s.ipt a ⟨idx, idx⟩ ⟨s.rules, fun _ => false⟩ f
      dsimp only
      generalize insertIpRule s.ipt a ⟨idx, idx⟩ ⟨s.rules, fun _ => false⟩ = done at hinsert hthere ⊢
      obtain ⟨w, _ | e⟩ := done
      · dsimp only at hinsert hthere ⊢
        cases a.later with
        | some e =>
          exact invariant_of_keeps hs (fun f r' hr' =>
            (keepsOthers_deleteIpRule f r' hr').trans (hinsert f r' hr')) hne
        | none =>
          obtain ⟨f, hipt⟩ := hadmits.1
          exact invariant_enabled hs i (fun f r' hr' => hinsert f r' hr') hne
            ⟨f, hipt, hthere f hipt rfl⟩
      · exact invariant_of_keeps hs (fun f r' hr' =>
          (keepsOthers_deleteIpRule f r' hr').trans (hinsert f r' hr')) hne
  · exact hs

theorem disable_keeps (hs : s.Shown ∧ s.Distinct) (i : Nat) (undo : Family → Bool) :
    (s.disable i undo).Shown ∧ (s.disable i undo).Distinct := by
  unfold disable
  split
  · next l hl =>
    refine ⟨fun j l' hl' => ?_, fun j k l₁ l₂ hl₁ hl₂ hjk => ?_⟩
    · rcases getElem?_set_some hl' with ⟨-, heq⟩ | ⟨hij, hl'⟩
      · cases heq
      · exact shown_of_keeps hs.1
          (fun f r' hr' => @keepsOthers_deleteIpRule _ ⟨s.rules, l.ruleAdded⟩ undo f r' hr') hl'
          (hs.2 j i l' l hl' hl hij.symm)
    · rcases getElem?_set_some hl₁ with ⟨-, heq⟩ | ⟨-, hl₁⟩
      · cases heq
      rcases getElem?_set_some hl₂ with ⟨-, heq⟩ | ⟨-, hl₂⟩
      · cases heq
      exact hs.2 j k l₁ l₂ hl₁ hl₂ hjk
  · exact hs

theorem step_keeps (e : Event) (hs : s.Shown ∧ s.Distinct) (hadmits : s.Admits e) :
    (s.step e).Shown ∧ (s.step e).Distinct := by
  have hmake : ∀ {i : Nat} {l : MarkedLink}, (s.groups ++ [none])[i]? = some (some l) →
      s.groups[i]? = some (some l) := by
    intro i l h
    rcases Nat.lt_or_ge i s.groups.length with hlt | hge
    · rwa [List.getElem?_append_left hlt] at h
    · rw [List.getElem?_append_right hge] at h
      have hmem := List.mem_of_getElem? h
      cases List.mem_singleton.mp hmem
  cases e with
  | others others => exact hs
  | make => exact ⟨fun i l hl => hs.1 i l (hmake hl),
      fun i j l l' hl hl' => hs.2 i j l l' (hmake hl) (hmake hl')⟩
  | enable i a => exact enable_keeps hs i hadmits
  | disable i undo => exact disable_keeps hs i undo

end MarkedGroups

/-- The number is fresh if one that the loop can give is, and with fresh numbers and a family in
use enabled groups have different ones in every run. -/
theorem markTable_exact (dump : Dump) (startIdx : UInt32) (s : MarkedGroups)
    (events : List MarkedGroups.Event) :
    (∀ idx, allocMarkTable dump startIdx = .ok idx →
      (startIdx ≤ idx ∧ dump.Free idx.toNat ↔ dump.HasFree startIdx)) ∧
    ((∀ g ∈ s.groups, g = none) → Guarded MarkedGroups.Admits MarkedGroups.step s events →
      (events.foldl MarkedGroups.step s).Distinct) := by
  refine ⟨fun idx => allocMarkTable_iff, fun hnone hguarded => ?_⟩
  have hoff : ∀ {i : Nat} {l : MarkedLink}, s.groups[i]? = some (some l) → False := by
    intro i l hl
    cases hnone _ (List.mem_of_getElem? hl)
  have hrun := hguarded.inv (I := fun s => s.Shown ∧ s.Distinct)
    (fun s e hs hadmits => MarkedGroups.step_keeps e hs hadmits)
    ⟨fun i l hl => (hoff hl).elim, fun i j l l' hl => (hoff hl).elim⟩
  exact hrun.2

/-- A kernel that does all it is asked. -/
def willing : Answers where
  dump _ _ := none
  del _ := false
  add _ := none
  later := none
  undo _ := false

def twoGroups (ipt : Bool) (startIdx : UInt32) : MarkedGroups where
  ipt _ := ipt
  startIdx := startIdx
  rules _ := []
  others _ _ := []
  groups := [none, none]

theorem free_of_msgs {msgs : DumpKind → Family → List RtMsg} {n : Nat} (hn : n ∉ reservedTables)
    (h : ∀ kind f, ∀ x ∈ msgs kind f, ¬ x.Uses kind n) : Dump.Free (fun kind f => .ok (msgs kind f)) n := by
  refine ⟨hn, ?_⟩
  rintro ⟨kind, f, _, hmsgs, x, hx, huse⟩
  cases hmsgs
  exact h kind f x hx huse

def foreignRule : DumpKind → Family → List RtMsg
  | .rules, .v4 => [⟨rtmNewRule, 2, [⟨fraTable, some 2⟩, ⟨fraFwmark, some 1⟩]⟩]
  | _, _ => []

def besideForeign : MarkedGroups := { twoGroups true 1 with others := foreignRule }

theorem markTable_exact_besideForeign :
    allocMarkTable (besideForeign.dump willing.dump) 1 = .ok 3 ∧
    (besideForeign.dump willing.dump).Free 3 ∧
    ([.enable 0 willing, .enable 1 willing].foldl MarkedGroups.step besideForeign).Distinct ∧
    ([.enable 0 willing, .enable 1 willing].foldl MarkedGroups.step besideForeign).groups.map
      (fun g => g.map MarkedLink.mark) = [some 3, some 4] := by
  have hfirst : (besideForeign.dump willing.dump).HasFree 1 := by
    refine ⟨3, by decide, by decide, free_of_msgs (by decide) ?_⟩
    rintro (_ | _) (_ | _) <;> decide
  have hsecond : ((besideForeign.enable 0 willing).dump willing.dump).HasFree 1 := by
    refine ⟨4, by decide, by decide, free_of_msgs (by decide) ?_⟩
    rintro (_ | _) (_ | _) <;> decide
  have halloc : allocMarkTable (besideForeign.dump willing.dump) 1 = .ok 3 := rfl
  have hexact := markTable_exact (besideForeign.dump willing.dump) 1 besideForeign
    [.enable 0 willing, .enable 1 willing]
  exact ⟨halloc, ((hexact.1 3 halloc).mpr hfirst).2,
    hexact.2 (by decide) ⟨⟨⟨.v4, rfl⟩, hfirst⟩, ⟨⟨.v4, rfl⟩, hsecond⟩, trivial⟩, rfl⟩

/-- From the end of the range on a number is given out although it is used, so that two groups have
it, and without a family in use they have the same one from the first. -/
theorem sameNumber :
    (allocMarkTable ((twoGroups true 0xffffffff |>.enable 0 willing).dump willing.dump)
        0xffffffff = .ok 0xffffffff ∧
      ((twoGroups true 0xffffffff |>.enable 0 willing).dump willing.dump).Uses 0xffffffff) ∧
    ¬([.enable 0 willing, .enable 1 willing].foldl MarkedGroups.step
      (twoGroups true 0xffffffff)).Distinct ∧
    ¬([.enable 0 willing, .enable 1 willing].foldl MarkedGroups.step
      (twoGroups false 1)).Distinct := by
  refine ⟨⟨rfl, ?_⟩, fun h => ?_, fun h => ?_⟩
  · exact @MarkedGroups.uses_of_mem (twoGroups true 0xffffffff |>.enable 0 willing) _ .v4 0xffffffff
      (fun _ _ => rfl) (.head _)
  · exact h 0 1 _ _ rfl rfl (by decide) rfl
  · exact h 0 1 _ _ rfl rfl (by decide) rfl

end MagiTrickle.Netfilter
