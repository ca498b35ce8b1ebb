import MagiTrickle.Config.Ids
import MagiTrickle.Netfilter.Ipset

/-!
# The life of a ruleset (`netfilter/ruleset.c`)

A ruleset points to a group and owns a set and a link while it is up. Every
netfilter call may fail. What the calls answer is a list in the order in which
they are made; what goes wrong without an error is recorded as a `Fault`.

Between two calls of `enable`, `disable` and `sync` a ruleset holds both objects
exactly if its own flag and the flag of its group are set (`Held`).
-/

namespace MagiTrickle.Runtime

open Config Netfilter

/-- The address of an object on the heap. -/
abbrev Ptr := Nat

inductive Fault where
  /-- An add or a sync met a null pointer in place of the set. -/
  | missingSet
  /-- A set was forgotten that had not been disabled. -/
  | lostSet (name : Bytes)
  | lostLink (chain : Bytes)
  deriving DecidableEq, Repr

/-- The netfilter side: the answers still to come, `none` for `MT_OK`, and the faults so far. When
the list is used up all calls succeed. -/
structure Nf where
  answers : List (Option Err)
  faults : List Fault

namespace Nf

def call (nf : Nf) : Option Err × Nf :=
  match nf.answers with
  | [] => (none, nf)
  | e :: es => (e, { nf with answers := es })

def calls : Nat → Nf → Option Err × Nf
  | 0, nf => (none, nf)
  | n + 1, nf =>
    match nf.call with
    | (some e, nf) => (some e, nf)
    | (none, nf) => nf.calls n

def fault (nf : Nf) (fs : List Fault) : Nf := { nf with faults := nf.faults ++ fs }

@[simp] theorem faults_call (nf : Nf) : nf.call.2.faults = nf.faults := by
  unfold call
  split <;> rfl

@[simp] theorem faults_calls (n : Nat) (nf : Nf) : (nf.calls n).2.faults = nf.faults := by
  induction n generalizing nf with
  | zero => rfl
  | succ n ih =>
    have hc := nf.faults_call
    unfold calls
    split
    · next e nf' h =>
      rw [h] at hc
      exact hc
    · next nf' h =>
      rw [h] at hc
      exact (ih nf').trans hc

@[simp] theorem fault_nil (nf : Nf) : nf.fault [] = nf := by
  simp [fault]

end Nf

/-- An address given to `mt_ipset_add4` or `mt_ipset_add6`, without a prefix length. -/
structure Entry where
  family : Family
  addr : Bytes
  ttl : UInt32
  deriving DecidableEq, Repr

/-- `mt_ipset_t`: the name it was made with and what matches have added. -/
structure IpsetObj where
  name : Bytes
  added : List Entry
  deriving DecidableEq, Repr

/-- `mt_ruleset_deps_t`, as far as the names go. -/
structure Deps where
  ipsetPrefix : Bytes
  chainPrefix : Bytes
  deriving DecidableEq, Repr

/-- `snprintf` of a prefix and an id into 128 bytes. -/
def objectName (pre : Bytes) (id : Id) : Bytes := (pre ++ id.format).take 127

def Deps.ipsetName (k : Deps) (id : Id) : Bytes := objectName k.ipsetPrefix id

def Deps.chainName (k : Deps) (id : Id) : Bytes := objectName k.chainPrefix id

/-- `mt_ruleset_t`. The link is known by the name of its chain. -/
structure RulesetObj where
  group : Ptr
  enabled : Bool
  ipset : Option IpsetObj
  ipsetToLink : Option Bytes
  deriving DecidableEq, Repr

namespace RulesetObj

/-- `mt_ruleset_new`. -/
def new (p : Ptr) : RulesetObj := ⟨p, false, none, none⟩

/-- What is lost when the pointer to the set is forgotten. -/
def setLoss (rs : RulesetObj) : List Fault := (rs.ipset.map fun s => Fault.lostSet s.name).toList

/-- What is lost when the pointer to the link is forgotten. -/
def linkLoss (rs : RulesetObj) : List Fault := (rs.ipsetToLink.map Fault.lostLink).toList

/-- `mt_ruleset_free`. -/
def free (rs : RulesetObj) (nf : Nf) : Nf := nf.fault (rs.linkLoss ++ rs.setLoss)

/-- `ruleset_enable_locked`. The five calls before the set is kept are `mt_ipset_nl_real_new`,
`mt_ipset_new`, `mt_ipset_to_link_new`, `mt_ipset_to_link_clear_if_disabled` and
`mt_ipset_enable`; after it comes `mt_ipset_to_link_enable`. -/
def enableLocked (k : Deps) (g : Group) (rs : RulesetObj) (nf : Nf) :
    RulesetObj × Option Err × Nf :=
  if rs.enabled then (rs, none, nf)
  else if !g.enable then ({ rs with enabled := true }, none, nf)
  else
    match nf.calls 5 with
    | (some e, nf) => ({ rs with enabled := true }, some e, nf)
    | (none, nf) =>
      -- the pointers are overwritten, whatever they were
      match (nf.fault rs.setLoss).call with
      | (some e, nf) =>
        ({ rs with enabled := true, ipset := some ⟨k.ipsetName g.id, []⟩ }, some e, nf)
      | (none, nf) =>
        (⟨rs.group, true, some ⟨k.ipsetName g.id, []⟩, some (k.chainName g.id)⟩, none,
          nf.fault rs.linkLoss)

/-- `mt_ruleset_disable`. Both objects go, whatever the two calls answer. -/
def disable (g : Group) (rs : RulesetObj) (nf : Nf) : RulesetObj × Option Err × Nf :=
  if !rs.enabled then (rs, none, nf)
  else if !g.enable then ({ rs with enabled := false }, none, nf)
  else
    let r1 := if rs.ipsetToLink.isSome then nf.call else (none, nf)
    let r2 := if rs.ipset.isSome then r1.2.call else (none, r1.2)
    (⟨rs.group, false, none, none⟩, r1.1 <|> r2.1, r2.2)

/-- `mt_ruleset_enable`. -/
def enable (k : Deps) (g : Group) (rs : RulesetObj) (nf : Nf) : RulesetObj × Option Err × Nf :=
  match rs.enableLocked k g nf with
  | (rs, none, nf) => (rs, none, nf)
  | (rs, some e, nf) => ((rs.disable g nf).1, some e, (rs.disable g nf).2.2)

/-- `mt_ruleset_sync`. Reading the set can fail for either family; errors of the adds and deletes
are only logged. -/
def sync (g : Group) (rs : RulesetObj) (nf : Nf) : Option Err × Nf :=
  if !rs.enabled then (none, nf)
  else if !g.enable then (none, nf)
  else
    match rs.ipset with
    | none => (none, nf.fault [.missingSet])
    | some _ => nf.calls 2

/-- `mt_ruleset_enable`, then the sync. -/
def start (k : Deps) (g : Group) (rs : RulesetObj) (nf : Nf) : RulesetObj × Option Err × Nf :=
  match rs.enable k g nf with
  | (rs, some e, nf) => (rs, some e, nf)
  | (rs, none, nf) => (rs, rs.sync g nf)

/-- `mt_ruleset_add_ipv4` and `mt_ruleset_add_ipv6`. -/
def add (g : Group) (e : Entry) (rs : RulesetObj) (nf : Nf) : RulesetObj × Nf :=
  if !rs.enabled then (rs, nf)
  else if !g.enable then (rs, nf)
  else
    match rs.ipset with
    | none => (rs, nf.fault [.missingSet])
    | some s => ({ rs with ipset := some { s with added := s.added ++ [e] } }, nf)

/-! ## Between two calls -/

/-- The set and the link are there exactly if both flags are set, under the names of the group. -/
structure Held (k : Deps) (g : Group) (rs : RulesetObj) : Prop where
  set : rs.ipset.map IpsetObj.name = if rs.enabled && g.enable then some (k.ipsetName g.id) else none
  link : rs.ipsetToLink = if rs.enabled && g.enable then some (k.chainName g.id) else none

/-- A ruleset that is down and owns nothing. -/
structure Idle (rs : RulesetObj) : Prop where
  down : rs.enabled = false
  set : rs.ipset = none
  link : rs.ipsetToLink = none

variable {k : Deps} {g g' : Group} {rs : RulesetObj} {nf : Nf}

theorem idle_new (p : Ptr) : (new p).Idle := ⟨rfl, rfl, rfl⟩

theorem Idle.held (h : rs.Idle) : rs.Held k g := by
  obtain ⟨hd, hs, hl⟩ := h
  constructor
  · simp [hd, hs]
  · simp [hd, hl]

theorem Idle.setLoss (h : rs.Idle) : rs.setLoss = [] := by
  simp [RulesetObj.setLoss, h.set]

theorem Idle.linkLoss (h : rs.Idle) : rs.linkLoss = [] := by
  simp [RulesetObj.linkLoss, h.link]

theorem Held.idle (h : rs.Held k g) (hd : rs.enabled = false) : rs.Idle := by
  obtain ⟨hs, hl⟩ := h
  rw [hd, Bool.false_and] at hs hl
  exact ⟨hd, by simpa using hs, by simpa using hl⟩

theorem Held.congr (h : rs.Held k g) (hid : g'.id = g.id) (hen : g'.enable = g.enable) :
    rs.Held k g' := by
  obtain ⟨hs, hl⟩ := h
  constructor
  · rw [hs, hid, hen]
  · rw [hl, hid, hen]

theorem Held.ipset_isSome (h : rs.Held k g) (he : rs.enabled = true) (hg : g.enable = true) :
    ∃ s, rs.ipset = some s ∧ s.name = k.ipsetName g.id := by
  have hs := h.set
  rw [he, hg] at hs
  simpa using hs

/-! ## What the functions do -/

@[simp] theorem group_disable : (rs.disable g nf).1.group = rs.group := by
  unfold disable
  split_ifs <;> rfl

/-- With both flags set `disable` clears the ruleset, whatever it holds. -/
theorem disable_of_flags (nf : Nf) (he : rs.enabled = true) (hg : g.enable = true) :
    (rs.disable g nf).1.Idle ∧ (rs.disable g nf).2.2.faults = nf.faults := by
  unfold RulesetObj.disable
  rw [if_neg (by simp [he]), if_neg (by simp [hg])]
  refine ⟨⟨rfl, rfl, rfl⟩, ?_⟩
  dsimp only
  split <;> split <;> simp only [Nf.faults_call]

/-- `disable` leaves an idle ruleset and loses nothing. -/
theorem Held.disable (h : rs.Held k g) (nf : Nf) :
    (rs.disable g nf).1.Idle ∧ (rs.disable g nf).2.2.faults = nf.faults := by
  by_cases he : rs.enabled = true
  · by_cases hg : g.enable = true
    · exact disable_of_flags nf he hg
    · have hg : g.enable = false := by simpa using hg
      obtain ⟨hs, hl⟩ := h
      rw [hg, Bool.and_false] at hs hl
      rw [RulesetObj.disable, if_neg (by simp [he]), if_pos (by simp [hg])]
      exact ⟨⟨rfl, by simpa using hs, by simpa using hl⟩, rfl⟩
  · rw [RulesetObj.disable, if_pos (by simpa using he)]
    exact ⟨h.idle (by simpa using he), rfl⟩

@[simp] theorem group_enableLocked : (rs.enableLocked k g nf).1.group = rs.group := by
  unfold enableLocked
  split_ifs
  · rfl
  · rfl
  · split
    · rfl
    · split <;> rfl

/-- `enableLocked` on an idle ruleset loses nothing. Where it succeeds the ruleset is held; where
it fails both flags are set, so that `disable` clears what there is. -/
theorem Idle.enableLocked (h : rs.Idle) (k : Deps) (g : Group) (nf : Nf) :
    (rs.enableLocked k g nf).2.2.faults = nf.faults ∧
      ((rs.enableLocked k g nf).2.1 = none → (rs.enableLocked k g nf).1.Held k g) ∧
      ((rs.enableLocked k g nf).2.1 ≠ none →
        (rs.enableLocked k g nf).1.enabled = true ∧ g.enable = true) := by
  unfold RulesetObj.enableLocked
  rw [if_neg (by simp [h.down])]
  simp only [h.setLoss, h.linkLoss, Nf.fault_nil]
  split_ifs with hg
  · have hg : g.enable = false := by simpa using hg
    refine ⟨rfl, fun _ => ⟨?_, ?_⟩, fun hne => absurd rfl hne⟩
    · simp [hg, h.set]
    · simp [hg, h.link]
  · have hg : g.enable = true := by simpa using hg
    have h5 := nf.faults_calls 5
    split
    · next e nf' hc =>
      rw [hc] at h5
      exact ⟨h5, (fun hn => nomatch hn), fun _ => ⟨rfl, hg⟩⟩
    · next nf' hc =>
      rw [hc] at h5
      have h1 := nf'.faults_call
      split
      · next e nf'' hc' =>
        rw [hc'] at h1
        exact ⟨h1.trans h5, (fun hn => nomatch hn), fun _ => ⟨rfl, hg⟩⟩
      · next nf'' hc' =>
        rw [hc'] at h1
        refine ⟨h1.trans h5, fun _ => ⟨?_, ?_⟩, fun hne => absurd rfl hne⟩
        · simp [hg]
        · simp [hg]

@[simp] theorem group_enable : (rs.enable k g nf).1.group = rs.group := by
  have hg : (rs.enableLocked k g nf).1.group = rs.group := group_enableLocked
  unfold enable
  split
  · next h =>
    rw [h] at hg
    exact hg
  · next h =>
    rw [h] at hg
    rw [group_disable]
    exact hg

/-- `enable` keeps a ruleset held, also where it fails. -/
theorem Held.enable (h : rs.Held k g) (nf : Nf) :
    (rs.enable k g nf).1.Held k g ∧ (rs.enable k g nf).2.2.faults = nf.faults := by
  unfold RulesetObj.enable
  by_cases he : rs.enabled = true
  · rw [RulesetObj.enableLocked, if_pos he]
    exact ⟨h, rfl⟩
  · obtain ⟨hf, hok, herr⟩ := (h.idle (by simpa using he)).enableLocked k g nf
    split
    · next rs' nf' hr =>
      rw [hr] at hf hok
      exact ⟨hok rfl, hf⟩
    · next rs' e nf' hr =>
      rw [hr] at hf herr
      obtain ⟨hen, hg⟩ := herr (by simp)
      obtain ⟨hi, hf'⟩ := disable_of_flags nf' hen hg
      exact ⟨hi.held, hf'.trans hf⟩

theorem Held.sync (h : rs.Held k g) : (rs.sync g nf).2.faults = nf.faults := by
  unfold RulesetObj.sync
  split_ifs with he hg
  · rfl
  · rfl
  · obtain ⟨s, hs, -⟩ := h.ipset_isSome (by simpa using he) (by simpa using hg)
    rw [hs]
    exact nf.faults_calls 2

@[simp] theorem group_start : (rs.start k g nf).1.group = rs.group := by
  have hg : (rs.enable k g nf).1.group = rs.group := group_enable
  unfold start
  split
  · next h =>
    rw [h] at hg
    exact hg
  · next h =>
    rw [h] at hg
    exact hg

theorem Held.start (h : rs.Held k g) (nf : Nf) :
    (rs.start k g nf).1.Held k g ∧ (rs.start k g nf).2.2.faults = nf.faults := by
  have he := h.enable nf
  unfold RulesetObj.start
  split
  · next hr =>
    rw [hr] at he
    exact he
  · next hr =>
    rw [hr] at he
    exact ⟨he.1, he.1.sync.trans he.2⟩

@[simp] theorem group_add (e : Entry) : (rs.add g e nf).1.group = rs.group := by
  unfold add
  split_ifs
  · rfl
  · rfl
  · split <;> rfl

theorem Held.add (h : rs.Held k g) (e : Entry) (nf : Nf) :
    (rs.add g e nf).1.Held k g ∧ (rs.add g e nf).2 = nf := by
  unfold RulesetObj.add
  split_ifs with he hg
  · exact ⟨h, rfl⟩
  · exact ⟨h, rfl⟩
  · obtain ⟨s, hs, hn⟩ := h.ipset_isSome (by simpa using he) (by simpa using hg)
    rw [hs]
    refine ⟨⟨?_, h.link⟩, rfl⟩
    rw [← h.set, hs]
    rfl

theorem Idle.free (h : rs.Idle) (nf : Nf) : rs.free nf = nf := by
  rw [RulesetObj.free, h.linkLoss, h.setLoss, List.append_nil, Nf.fault_nil]

end RulesetObj

end MagiTrickle.Runtime
