import MagiTrickle.Dns.Pipeline
import MagiTrickle.DnsCache.Views

/-!
# The records the pipeline reads

An answer is an address or a CNAME, with names as the cache knows them, or is
skipped. Handling a message is putting its records into the cache one after the
other and reporting on each.
-/

namespace MagiTrickle.Pipeline

open MagiTrickle.DnsCache MagiTrickle.Rules MagiTrickle.Dns.Wire Relation

inductive Record where
  | addr (owner ip : Bytes) (ttl : UInt32)
  | cname (owner target : Bytes) (ttl : UInt32)
  deriving DecidableEq, Repr

namespace Record

def owner : Record → Bytes
  | addr o _ _ => o
  | cname o _ _ => o

def ttl : Record → UInt32
  | addr _ _ t => t
  | cname _ _ t => t

end Record

def decodeAddr (s : Settings) (rr : Rr) (addrLen : Nat) : Option Record :=
  if rr.rdata.length ≠ addrLen then none
  else (presentation rr.name).map fun owner => .addr owner rr.rdata (rr.ttl + s.additionalTtl)

/-- The record of an answer; the others are skipped. -/
def decode (s : Settings) (rr : Rr) : Option Record :=
  if rr.rtype = typeA then decodeAddr s rr 4
  else if rr.rtype = typeAaaa then decodeAddr s rr 16
  else if rr.rtype = typeCname then
    match presentation rr.name, presentation rr.rdata with
    | some owner, some target => some (.cname owner target (rr.ttl + s.additionalTtl))
    | _, _ => none
  else none

def cacheRecord (c : Table) (now : Int) : Record → Table
  | .addr owner ip ttl => c.addAddress owner ip ttl now
  | .cname owner target ttl => c.addAlias owner target ttl now

def report (s : Settings) (c : Table) (now : Int) : Record → List Action
  | .addr owner ip ttl =>
    (s.snapshot.filter fun g => anyMatch s g (c.getAliases owner)).map fun g => ⟨g.id, ip, ttl⟩
  | .cname owner _ _ =>
    (s.snapshot.filter fun g => anyMatch s g (c.getAliases owner)).flatMap fun g =>
      ((cacheGetAddresses c.cache owner now).filter fun a => a.deadline - now > 0).map fun a =>
        ⟨g.id, a.addr, UInt32.ofNat (a.deadline - now).toNat⟩

theorem handleAddressRecord_eq (s : Settings) (c : Table) (rr : Rr) (addrLen : Nat) (now : Int) :
    handleAddressRecord s c rr addrLen now =
      match decodeAddr s rr addrLen with
      | none => (c, [])
      | some r => (cacheRecord c now r, report s (cacheRecord c now r) now r) := by
  unfold handleAddressRecord decodeAddr
  split
  · rfl
  · cases presentation rr.name <;> rfl

theorem handleRecord_eq (s : Settings) (c : Table) (rr : Rr) (now : Int) :
    handleRecord s c rr now =
      match decode s rr with
      | none => (c, [])
      | some r => (cacheRecord c now r, report s (cacheRecord c now r) now r) := by
  unfold handleRecord decode
  split
  · exact handleAddressRecord_eq s c rr 4 now
  · split
    · exact handleAddressRecord_eq s c rr 16 now
    · split
      · unfold handleCnameRecord
        cases presentation rr.name with
        | none => rfl
        | some owner => cases presentation rr.rdata <;> rfl
      · rfl

def reports (s : Settings) (now : Int) : Table → List Record → List Action
  | _, [] => []
  | c, r :: rs =>
    report s (cacheRecord c now r) now r ++ reports s now (cacheRecord c now r) rs

theorem handleRecords_eq (s : Settings) (now : Int) (c : Table) (rrs : List Rr) :
    handleRecords s now c rrs = ((rrs.filterMap (decode s)).foldl (cacheRecord · now) c,
      reports s now c (rrs.filterMap (decode s))) := by
  induction rrs generalizing c with
  | nil => rfl
  | cons rr rrs ih =>
    rw [handleRecords, handleRecord_eq]
    cases hd : decode s rr with
    | none =>
      rw [List.filterMap_cons_none hd]
      dsimp only
      rw [ih]
      rfl
    | some r =>
      rw [List.filterMap_cons_some hd]
      dsimp only
      rw [ih]
      rfl

/-! ## What is reported -/

theorem anyMatch_iff {s : Settings} {g : GroupSnapshot} {names : List Bytes} :
    anyMatch s g names = true ↔ ∃ n ∈ names, matcherMatch s.rx g.matcher n = true :=
  List.any_eq_true

/-- An address is reported to the groups that match a name leading to its owner. -/
theorem mem_report_addr {s : Settings} {c : Table} (h : c.Inv) {now : Int} {o ip : Bytes}
    {ttl : UInt32} {act : Action} :
    act ∈ report s c now (.addr o ip ttl) ↔ ∃ g ∈ s.snapshot, (∃ n, ReflTransGen c.Edge n o ∧
      matcherMatch s.rx g.matcher n = true) ∧ act = ⟨g.id, ip, ttl⟩ := by
  unfold report
  simp only [List.mem_map, List.mem_filter, anyMatch_iff, h.mem_getAliases, and_assoc]
  exact exists_congr fun g => and_congr_right fun _ => and_congr_right fun _ => eq_comm

/-- A CNAME reports the addresses that its owner leads to. -/
theorem mem_report_cname {s : Settings} {c : Table} (h : c.Inv) {now : Int} {d t : Bytes}
    {ttl : UInt32} {act : Action} :
    act ∈ report s c now (.cname d t ttl) ↔ ∃ g ∈ s.snapshot, (∃ n, ReflTransGen c.Edge n d ∧
      matcherMatch s.rx g.matcher n = true) ∧ ∃ a ∈ cacheGetAddresses c.cache d now,
        act = ⟨g.id, a.addr, UInt32.ofNat (a.deadline - now).toNat⟩ := by
  unfold report
  simp only [List.mem_flatMap, List.mem_map, List.mem_filter, anyMatch_iff, h.mem_getAliases,
    and_assoc, decide_eq_true_eq]
  refine exists_congr fun g => and_congr_right fun _ => and_congr_right fun _ =>
    exists_congr fun a => and_congr_right fun ha => ?_
  have hlive := deadline_of_mem_cacheGetAddresses ha
  rw [and_iff_right (by omega)]
  exact eq_comm

theorem inv_cacheRecord {c : Table} (h : c.Inv) (now : Int) (r : Record) :
    (cacheRecord c now r).Inv := by
  cases r with
  | addr o ip ttl => exact h.addAddress o ip ttl now
  | cname d t ttl => exact h.addAlias d t ttl now

end MagiTrickle.Pipeline
