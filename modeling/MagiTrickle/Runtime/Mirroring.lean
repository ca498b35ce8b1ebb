import MagiTrickle.Runtime.Ownership

/-!
# The snapshot of the DNS pipeline

The snapshot is made anew by hand wherever the configuration changes. It is the
one of the present configuration in every state a daemon reaches
(`run_mirrored`), as long as no failed sync of all that is due leaves a
subscription with other rules than before (`Steady`).
-/

namespace MagiTrickle.Runtime

open Config Api Rules

def Sub.entry (s : Sub) : Option GroupSnapshot :=
  if (Rules.subRuntimeGroup s.config).enable then
    some (snapshotEntry (Rules.subRuntimeGroup s.config))
  else none

namespace Subs

variable {m u : Subs} {now : Nat}

def entries (m : Subs) : List GroupSnapshot := m.list.filterMap Sub.entry

theorem entries_eq_runtime (m : Subs) :
    m.entries = (m.runtime.filter Group.enable).map snapshotEntry := by
  unfold entries runtime
  induction m.list with
  | nil => rfl
  | cons s l ih =>
    rw [List.filterMap_cons, List.map_cons, List.filter_cons]
    unfold Sub.entry
    split_ifs
    · rw [List.map_cons]
      exact congrArg _ ih
    · exact ih

theorem isSome_entry (s : Sub) : s.entry.isSome = (Rules.subRuntimeGroup s.config).enable := by
  unfold Sub.entry
  split <;> simp_all

/-- Plans do not switch a subscription on or off. -/
theorem isSome_entry_planned (s : Sub) (qs : List Plan) :
    (planned now s qs).entry.isSome = s.entry.isSome := by
  induction qs using List.reverseRecOn with
  | nil => rfl
  | append_singleton qs q ih =>
    rw [planned_concat, ← ih, isSome_entry, isSome_entry]
    unfold carryOut
    split <;> rfl

/-- Lists of optional values with the same gaps are the same if their values are. -/
theorem map_eq_of_filterMap {α β γ : Type} {f : α → Option γ} {g : β → Option γ} {l : List α}
    {l' : List β} (hs : l.map (fun x => (f x).isSome) = l'.map (fun x => (g x).isSome))
    (h : l.filterMap f = l'.filterMap g) : l.map f = l'.map g := by
  induction l generalizing l' with
  | nil =>
    cases l' with
    | nil => rfl
    | cons y l' => cases hs
  | cons x l ih =>
    cases l' with
    | nil => cases hs
    | cons y l' =>
      obtain ⟨hxy, hs⟩ := List.cons.inj hs
      have hxy : (f x).isSome = (g y).isSome := hxy
      rw [List.filterMap_cons, List.filterMap_cons] at h
      cases hx : f x with
      | none =>
        cases hy : g y with
        | none =>
          rw [hx, hy] at h
          rw [List.map_cons, List.map_cons, hx, hy, ih hs h]
        | some b =>
          rw [hx, hy] at hxy
          cases hxy
      | some a =>
        cases hy : g y with
        | none =>
          rw [hx, hy] at hxy
          cases hxy
        | some b =>
          rw [hx, hy] at h
          obtain ⟨rfl, hrest⟩ := List.cons.inj h
          rw [List.map_cons, List.map_cons, hx, hy, ih hs hrest]

/-- The contributions after a rollback are the old ones exactly if each is. -/
theorem entries_rolledBack_iff (now : Nat) (m : Subs) (ps : List Plan) :
    (rolledBack now m ps).entries = m.entries ↔
      ∀ i s, m.list[i]? = some s →
        (planned now s (m.plansAt ps i).dropLast).entry = s.entry := by
  rw [← map_rolledBack Sub.entry]
  constructor
  · intro h
    refine map_eq_of_filterMap ?_ h
    rw [map_rolledBack]
    exact fun i s _ => isSome_entry_planned s _
  · intro h
    have hmap : ∀ l : List Sub, l.filterMap Sub.entry = (l.map Sub.entry).filterMap id := by
      intro l
      rw [List.filterMap_map]
      rfl
    rw [entries, entries, hmap, hmap, h]

end Subs

namespace Daemon

variable {d b : Daemon}

theorem snapshotBuild_entries (d : Daemon) (gs : List Group) :
    rulesetSnapshotBuild gs d.configSubs = (gs.filter Group.enable).map snapshotEntry ++ d.subs.entries := by
  rw [snapshotBuild_runtime, List.map_append, Subs.entries_eq_runtime]

/-- Where the snapshot and the groups are as they were, it depends on the subscriptions alone
whether they still agree. -/
theorem Mirrored.iff_entries (h : d.Mirrored) (hs : b.snapshot = d.snapshot)
    (hg : b.configGroups = d.configGroups) : b.Mirrored ↔ b.subs.entries = d.subs.entries := by
  unfold Mirrored at h ⊢
  rw [hs, h, snapshotBuild_entries, snapshotBuild_entries, hg, List.append_cancel_left_eq]
  exact eq_comm

/-- Every subscription contributes before the last of its plans what it contributes now. -/
def Steady (d : Daemon) (fetch : Nat → Fetch) (now : Nat) : Prop :=
  ∀ i s, d.subs.list[i]? = some s →
    (Subs.planned now s (d.subs.plansAt (d.duePlans fetch now) i).dropLast).entry = s.entry

theorem Coherent.mirrored_syncDue_iff (hd : d.Coherent) (hm : d.Mirrored) {fetch : Nat → Fetch}
    {now : Nat} (he : (d.syncDueSubscriptions fetch now).2 ≠ none) :
    (d.syncDueSubscriptions fetch now).1.Mirrored ↔ d.Steady fetch now := by
  have hsubs := hd.subs_syncDue_error he
  have hsame := (hd.ends_syncDueSubscriptions fetch now).same hd he
  have hiff := Subs.entries_rolledBack_iff now (d.drawn fetch now) (d.duePlans fetch now)
  simp only [plansAt_drawn, list_drawn] at hiff
  rw [hm.iff_entries hsame.1 hsame.2, hsubs]
  unfold Subs.entries at hiff ⊢
  rw [list_drawn] at hiff
  exact hiff

theorem Coherent.mirrored_call (hd : d.Coherent) (hm : d.Mirrored) {o : SubOp}
    (ho : ∀ fetch now, o ≠ .syncDue fetch now) : (d.call o).1.Mirrored := by
  have hends := hd.ends_call o
  by_cases he : (d.call o).2 = none
  · rw [he] at hends
    exact hends.mirrored hm
  · obtain ⟨hs, hg⟩ := hends.same hd he
    exact hm.of_eq hs hg (hd.undone_call ho he).runtime

theorem Coherent.mirrored_step (hd : d.Coherent) (hm : d.Mirrored) (op : Op)
    (hs : ∀ fetch now, op = .syncDue fetch now → (d.syncDueSubscriptions fetch now).2 ≠ none →
      d.Steady fetch now) : (d.step op).Mirrored := by
  rcases hd.step_cases op with ⟨b, hg, hn | ⟨o, hno, ho⟩⟩ | ⟨fetch, now, hop, he⟩ | ⟨-, hsame⟩
  · rw [hn]
    exact hg.mirrored hm
  · rw [ho]
    exact hg.coherent.mirrored_call (hg.mirrored hm) hno
  · rw [he]
    by_cases hnone : (d.call (.syncDue fetch now)).2 = none
    · have hends := hd.ends_call (.syncDue fetch now)
      rw [hnone] at hends
      exact hends.mirrored hm
    · exact (hd.mirrored_syncDue_iff hm hnone).mpr (hs fetch now hop hnone)
  · exact hsame.mirrored hm

theorem Coherent.mirrored_run (hd : d.Coherent) (hm : d.Mirrored) {ops : List Op}
    (hs : d.FailsOnly Steady ops) : (d.run ops).Mirrored := by
  induction ops generalizing d with
  | nil => exact hm
  | cons op ops ih => exact ih (hd.step op).1 (hd.mirrored_step hm op hs.1) hs.2

/-- From any configuration, in any run whose failed syncs of all that is due were steady, the
snapshot is the one of the present configuration. The next such sync that fails leaves it so
exactly if it is steady itself. -/
theorem run_mirrored {k : Deps} {cfg : Config} {answers : List (Option Err)}
    (h : launch k cfg answers = .ok d) {ops : List Op} (hs : d.FailsOnly Steady ops) :
    (d.run ops).Mirrored ∧
      ∀ fetch now, ((d.run ops).syncDueSubscriptions fetch now).2 ≠ none →
        ((d.run (ops ++ [.syncDue fetch now])).Mirrored ↔ (d.run ops).Steady fetch now) := by
  obtain ⟨hc, ha, hm⟩ := launch_spec h
  have hm' := hc.mirrored_run hm hs
  refine ⟨hm', fun fetch now he => ?_⟩
  rw [run, List.foldl_append]
  exact (hc.run ha ops).1.mirrored_syncDue_iff hm' he

/-- With one plan only the snapshot stays the one of the configuration. -/
theorem run_mirrored_halfDown :
    (loadBuffer initDefaults twins).2 = .ok twinsConfig ∧
      ∃ d, launch ⟨str "mt_", str "MT_"⟩ twinsConfig rebuildFails = .ok d ∧
        (d.syncDueSubscriptions halfDown 100).2 = some .sys ∧
        (d.run [.syncDue halfDown 100]).Mirrored := by
  refine ⟨rfl, _, rfl, by decide +kernel, ?_⟩
  refine (@run_mirrored _ ⟨str "mt_", str "MT_"⟩ twinsConfig rebuildFails rfl
    [.syncDue halfDown 100] ⟨?_, trivial⟩).1
  have hall : ∀ x ∈ (create ⟨str "mt_", str "MT_"⟩ twinsConfig rebuildFails).subs.list.zipIdx,
      (Subs.planned 100 x.1 ((create ⟨str "mt_", str "MT_"⟩ twinsConfig
        rebuildFails).subs.plansAt ((create ⟨str "mt_", str "MT_"⟩ twinsConfig
          rebuildFails).duePlans halfDown 100) x.2).dropLast).entry = x.1.entry := by
    decide +kernel
  intro fetch now hop _ i s hi
  cases hop
  exact hall (s, i) (List.mem_zipIdx_iff_getElem?.mpr hi)

/-- The first of two subscriptions with one id has new rules that the snapshot does not have. -/
theorem syncDue_twins_stale :
    (loadBuffer initDefaults twins).2 = .ok twinsConfig ∧
      ∃ d, launch ⟨str "mt_", str "MT_"⟩ twinsConfig rebuildFails = .ok d ∧
        (d.run [.syncDue flapping 100]).snapshot ≠
          rulesetSnapshotBuild (d.run [.syncDue flapping 100]).configGroups
            (d.run [.syncDue flapping 100]).configSubs := by
  refine ⟨rfl, _, rfl, ?_⟩
  decide +kernel

end Daemon

end MagiTrickle.Runtime
