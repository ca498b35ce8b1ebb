import MagiTrickle.Netfilter.Ruleset

/-!
# The effect of a sync on one kernel set

`lookup_syncDiff` says what the set holds under each key after the adds and
deletes of `sync_diff_v4` or `sync_diff_v6`. A wanted entry is skipped when the
listing already has it permanently (or with a later timeout), and a listed key
that no wanted entry names is deleted.
-/

namespace MagiTrickle.Netfilter

variable {fam : Family}

theorem netKey_subnet (k : NetKey fam) : netKey fam k.subnet = some k := by
  have h0 : k.subnet.cidr ≠ 0 := Nat.pos_iff_ne_zero.mp k.pos
  rw [netKey, dif_neg h0, dif_pos (show k.subnet.cidr ≤ fam.max from k.le)]
  rfl

theorem subnet_injective {k k' : NetKey fam} (h : k.subnet = k'.subnet) : k = k' :=
  Option.some.inj ((netKey_subnet k).symm.trans ((congrArg (netKey fam) h).trans (netKey_subnet k')))

theorem netKey_eq_some_of_pos {s : Subnet} {k : NetKey fam} (h0 : s.cidr ≠ 0)
    (h : netKey fam s = some k) : s = k.subnet := by
  rw [netKey, dif_neg h0] at h
  split at h
  · cases h; rfl
  · cases h

/-! ## Kernel operations -/

theorem lookup_realAdd (set : KernelSet fam) (s : Subnet) (t : Nat) (k : NetKey fam) :
    (realAdd set s t).lookup k = if netKey fam s = some k then some t else set.lookup k := by
  unfold realAdd
  cases h : netKey fam s with
  | none => simp
  | some k' =>
    by_cases hk : k' = k
    · subst hk; simp
    · simp [hk, AList.lookup_insert_ne (Ne.symm hk)]

theorem lookup_realDel (set : KernelSet fam) (k' k : NetKey fam) :
    (realDel set k'.subnet).lookup k = if k' = k then none else set.lookup k := by
  unfold realDel
  rw [netKey_subnet]
  by_cases hk : k' = k
  · subst hk; simp
  · simp [hk, AList.lookup_erase_ne (Ne.symm hk)]

theorem find?_realList (set : KernelSet fam) (k : NetKey fam) :
    ((realList set).find? fun o => o.subnet = k.subnet) =
      (set.lookup k).map fun t => parseOneEntry ⟨k, t⟩ := by
  obtain ⟨l, hl⟩ := set
  show ((l.map parseOneEntry).find? fun o => o.subnet = k.subnet) =
    (l.dlookup k).map fun t => parseOneEntry ⟨k, t⟩
  clear hl
  induction l with
  | nil => rfl
  | cons x l ih =>
    by_cases hx : x.1 = k
    · obtain ⟨k', t⟩ := x
      subst hx
      simp [parseOneEntry]
    · have hs : ¬ (parseOneEntry x).subnet = k.subnet := fun h => hx (subnet_injective h)
      rw [List.map_cons, List.find?_cons_of_neg (by simpa using hs), ih,
        List.dlookup_cons_ne _ _ (Ne.symm hx)]

theorem nodup_realList (set : KernelSet fam) : ((realList set).map IpsetEntry.subnet).Nodup := by
  have : (realList set).map IpsetEntry.subnet = set.keys.map NetKey.subnet := by
    simp [realList, AList.keys, List.keys, parseOneEntry, Function.comp_def]
  rw [this]
  exact set.keys_nodup.map fun k k' h => subnet_injective h

/-! ## The two loops -/

/-- The listing makes the add of a wanted entry unnecessary. -/
def skips (old : List IpsetEntry) (e : NewEntry) : Bool :=
  (old.find? fun o => o.subnet = e.subnet).any fun o =>
    !o.hasTimeout || (e.hasTtl && decide (e.ttl < o.timeout))

def NewEntry.timeout (e : NewEntry) : Nat := if e.hasTtl then e.ttl else 0

theorem kept_set (old : List IpsetEntry) (hnd : (old.map IpsetEntry.subnet).Nodup)
    (kept : List Bool) (hlen : kept.length = old.length) (s : Subnet) :
    (match old.findIdx? fun o => o.subnet = s with
      | none => kept
      | some j => kept.set j true) =
      List.zipWith (fun o b => b || decide (o.subnet = s)) old kept := by
  induction old generalizing kept with
  | nil => simpa using hlen
  | cons o old ih =>
    rcases kept with _ | ⟨b, kept⟩
    · simp at hlen
    simp only [List.map_cons, List.nodup_cons, List.mem_map, not_exists, not_and] at hnd
    simp only [List.length_cons, Nat.add_right_cancel_iff] at hlen
    have hih := ih hnd.2 kept hlen
    rw [List.findIdx?_cons]
    by_cases ho : o.subnet = s
    · -- no later row has the same subnet
      have htail : List.zipWith (fun o b => b || decide (o.subnet = s)) old kept = kept := by
        have hnone : old.findIdx? (fun o => o.subnet = s) = none := by
          rw [List.findIdx?_eq_none_iff]
          intro x hx
          simpa using fun h : x.subnet = s => hnd.1 x hx (h.trans ho.symm)
        rw [← hih, hnone]
      simp [ho, htail]
    · cases hf : old.findIdx? (fun o => o.subnet = s) with
      | none => rw [hf] at hih; simpa [ho] using hih
      | some j => rw [hf] at hih; simpa [ho] using hih

theorem skips_eq_findIdx? (old : List IpsetEntry) (e : NewEntry) :
    (match old.findIdx? fun o => o.subnet = e.subnet with
      | none => false
      | some j => old[j]?.any fun o => !o.hasTimeout || (e.hasTtl && decide (e.ttl < o.timeout))) =
      skips old e := by
  unfold skips
  induction old with
  | nil => rfl
  | cons o old ih =>
    rw [List.findIdx?_cons]
    by_cases ho : o.subnet = e.subnet
    · simp [ho]
    · rw [List.find?_cons_of_neg (by simpa using ho), ← ih]
      cases old.findIdx? fun o => o.subnet = e.subnet <;> simp [ho]

theorem syncDiffAdd_eq {old : List IpsetEntry} (hnd : (old.map IpsetEntry.subnet).Nodup) (r : Ipset)
    {kept : List Bool} (hlen : kept.length = old.length) (e : NewEntry) :
    syncDiffAdd fam old (r, kept) e =
      (if skips old e then r else r.add fam e.subnet (if e.hasTtl then some e.ttl else none),
        List.zipWith (fun o b => b || decide (o.subnet = e.subnet)) old kept) := by
  rw [← kept_set old hnd kept hlen, ← skips_eq_findIdx?]
  unfold syncDiffAdd
  cases old.findIdx? fun o => o.subnet = e.subnet with
  | none => rfl
  | some j => dsimp only; split <;> simp_all

/-- The first loop: the entries not skipped are added, and the rows named are flagged. -/
theorem foldl_syncDiffAdd {old : List IpsetEntry} (hnd : (old.map IpsetEntry.subnet).Nodup)
    (news : List NewEntry) (r : Ipset) (f : IpsetEntry → Bool) :
    news.foldl (syncDiffAdd fam old) (r, old.map f) =
      (news.foldl (fun r e => if skips old e then r
          else r.add fam e.subnet (if e.hasTtl then some e.ttl else none)) r,
        old.map fun o => f o || news.any fun e => decide (o.subnet = e.subnet)) := by
  induction news generalizing r f with
  | nil => simp
  | cons e news ih =>
    have hzip : List.zipWith (fun o b => b || decide (o.subnet = e.subnet)) old (old.map f) =
        old.map fun o => f o || decide (o.subnet = e.subnet) := by
      rw [List.zipWith_map_right, List.zipWith_self]
    rw [List.foldl_cons, syncDiffAdd_eq hnd r (by simp), hzip, ih, List.foldl_cons]
    simp only [List.any_cons, Bool.or_assoc]

/-- A loop on an enabled ipset that touches one of its sets only. -/
theorem foldl_put {β : Type} {f : Ipset → β → Ipset} {g : KernelSet fam → β → KernelSet fam}
    (hf : ∀ r b, r.enabled = true → f r b = r.put fam (g (r.get fam) b)) (bs : List β) (r : Ipset)
    (hr : r.enabled = true) : bs.foldl f r = r.put fam (bs.foldl g (r.get fam)) := by
  induction bs generalizing r with
  | nil => simp
  | cons b bs ih => rw [List.foldl_cons, hf r b hr, ih _ (by simpa using hr)]; simp

def addNews (old : List IpsetEntry) (set : KernelSet fam) (e : NewEntry) : KernelSet fam :=
  if skips old e then set else realAdd set e.subnet e.timeout

def delOld (news : List NewEntry) (set : KernelSet fam) (o : IpsetEntry) : KernelSet fam :=
  if news.any fun e => decide (o.subnet = e.subnet) then set else realDel set o.subnet

/-- `sync_diff` on an enabled ipset, without the flags. -/
theorem syncDiff_eq (r : Ipset) (hr : r.enabled = true) (news : List NewEntry) :
    syncDiff fam r news = r.put fam ((realList (r.get fam)).foldl (delOld news)
      (news.foldl (addNews (realList (r.get fam))) (r.get fam))) := by
  have hlist : r.list fam = realList (r.get fam) := by simp [Ipset.list, hr]
  have hadd : ∀ (r' : Ipset) (e : NewEntry), r'.enabled = true →
      (if skips (realList (r.get fam)) e then r'
        else r'.add fam e.subnet (if e.hasTtl then some e.ttl else none)) =
      r'.put fam (addNews (realList (r.get fam)) (r'.get fam) e) := by
    intro r' e hr'
    rw [addNews, NewEntry.timeout, Ipset.add, if_pos hr']
    split
    · simp
    · cases e.hasTtl <;> rfl
  have hdel : ∀ (r' : Ipset) (o : IpsetEntry), r'.enabled = true →
      (if news.any fun e => decide (o.subnet = e.subnet) then r' else r'.del fam o.subnet) =
      r'.put fam (delOld news (r'.get fam) o) := by
    intro r' o hr'
    rw [delOld, Ipset.del, if_pos hr']
    split
    · simp
    · rfl
  have hzip : ∀ (l : List IpsetEntry) (f : IpsetEntry → Bool),
      l.zip (l.map f) = l.map fun o => (o, f o) := by
    intro l f
    rw [List.zip, List.zipWith_map_right, List.zipWith_self]
  unfold syncDiff
  simp only [hlist]
  rw [foldl_syncDiffAdd (nodup_realList _)]
  simp only [Bool.false_or, hzip, List.foldl_map]
  rw [foldl_put hadd news r hr, foldl_put hdel _ _ (by simpa using hr)]
  simp

/-! ## What the set holds afterwards -/

theorem lookup_addNews (old : List IpsetEntry) (set : KernelSet fam) (e : NewEntry)
    (k : NetKey fam) :
    (addNews old set e).lookup k =
      if netKey fam e.subnet = some k ∧ ¬ skips old e then some e.timeout else set.lookup k := by
  unfold addNews
  split
  · next h => simp [h]
  · next h => simp [h, lookup_realAdd]

/-- After the adds a key has the timeout of the last entry that was added under it. -/
theorem lookup_foldl_addNews (old : List IpsetEntry) (news : List NewEntry) (set : KernelSet fam)
    (k : NetKey fam) :
    (news.foldl (addNews old) set).lookup k =
      (((news.filter fun e => netKey fam e.subnet = some k ∧ ¬ skips old e).getLast?).map
        NewEntry.timeout).or (set.lookup k) := by
  induction news generalizing set with
  | nil => rfl
  | cons e news ih =>
    rw [List.foldl_cons, ih, lookup_addNews]
    by_cases he : netKey fam e.subnet = some k ∧ ¬ skips old e
    · rw [if_pos he, List.filter_cons_of_pos (by simpa using he), List.getLast?_cons]
      cases (news.filter fun e => netKey fam e.subnet = some k ∧ ¬ skips old e).getLast? <;> rfl
    · rw [if_neg he, List.filter_cons_of_neg (by simpa using he)]

theorem lookup_delOld (news : List NewEntry) (set : KernelSet fam)
    (x : Sigma fun _ : NetKey fam => Nat) (k : NetKey fam) :
    (delOld news set (parseOneEntry x)).lookup k =
      if x.1 = k ∧ ¬ news.any (fun e => decide (k.subnet = e.subnet)) then none
      else set.lookup k := by
  show (if news.any (fun e => decide (x.1.subnet = e.subnet)) then set
    else realDel set x.1.subnet).lookup k = _
  by_cases hk : x.1 = k
  · subst hk
    split <;> simp_all [lookup_realDel]
  · split <;> simp [hk, lookup_realDel]

/-- The deletes remove the listed keys that no wanted entry names. -/
theorem lookup_foldl_delOld (news : List NewEntry) (set set' : KernelSet fam) (k : NetKey fam) :
    ((realList set).foldl (delOld news) set').lookup k =
      if k ∈ set ∧ ¬ news.any (fun e => decide (k.subnet = e.subnet)) then none
      else set'.lookup k := by
  have key : ∀ (l : List (Sigma fun _ : NetKey fam => Nat)) (set' : KernelSet fam),
      ((l.map parseOneEntry).foldl (delOld news) set').lookup k =
        if k ∈ l.keys ∧ ¬ news.any (fun e => decide (k.subnet = e.subnet)) then none
        else set'.lookup k := by
    intro l
    induction l with
    | nil => simp
    | cons x l ih =>
      intro set'
      rw [List.map_cons, List.foldl_cons, ih, lookup_delOld]
      simp only [List.keys_cons, List.mem_cons, eq_comm (a := k)]
      cases news.any fun e => decide (k.subnet = e.subnet) with
      | true => simp
      | false => by_cases hk : x.1 = k <;> by_cases hl : k ∈ l.keys <;> simp [hk, hl]
  rw [realList, key]
  exact if_congr Iff.rfl rfl rfl

/-- What an enabled ipset holds after `sync_diff`. -/
theorem lookup_syncDiff (r : Ipset) (hr : r.enabled = true) (news : List NewEntry)
    (k : NetKey fam) :
    ((syncDiff fam r news).get fam).lookup k =
      if k ∈ r.get fam ∧ ¬ news.any (fun e => decide (k.subnet = e.subnet)) then none
      else (((news.filter fun e => netKey fam e.subnet = some k ∧
          ¬ skips (realList (r.get fam)) e).getLast?).map NewEntry.timeout).or
        ((r.get fam).lookup k) := by
  rw [syncDiff_eq r hr, Ipset.get_put_self, lookup_foldl_delOld, lookup_foldl_addNews]

end MagiTrickle.Netfilter
