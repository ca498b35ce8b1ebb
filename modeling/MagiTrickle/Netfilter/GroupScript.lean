import MagiTrickle.Iptables.Reading
import MagiTrickle.Netfilter.Staged

/-!
# The names of a configuration in the firewall script

The interface of a group and the prefixes of chain and set names are strings that
the API and the loader take as they are. Here they are arbitrary: `linkCalls` and
`remapCalls` are the staging of `netfilter/ipset_to_link.c` and
`netfilter/port_remap.c` for such names, of which the staging in
`Netfilter.Rebuild` is the case of names without blanks. `Act` is what the daemon
does to an engine between commits.
-/

namespace MagiTrickle.GroupScript

open Iptables Rebuild
open Netfilter (Family)
open Lib.Runs (untilErr)

/-! ## Staging -/

/-- `chain_prefix` and `table_prefix` as they are configured. -/
structure Conf where
  chainPrefix : Bytes
  tablePrefix : Bytes
  deriving DecidableEq

/-- `mt_ipset_to_link_t` of a group or subscription, with the interface as it was given. -/
structure Link where
  id : Id
  iface : Bytes
  mark : UInt32
  deriving DecidableEq

namespace Conf

/-- `chain_name` of a ruleset, in its buffer of 128 bytes. -/
def chainName (conf : Conf) (id : Id) : Bytes := (conf.chainPrefix ++ id.format).take 127

/-- `mt_ipset_name4` and `mt_ipset_name6`. -/
def ipsetName (conf : Conf) (id : Id) : Family → Bytes
  | .v4 => (conf.tablePrefix ++ id.format).take 127 ++ str "_4"
  | .v6 => (conf.tablePrefix ++ id.format).take 127 ++ str "_6"

/-- `chain_name` of the port remap. -/
def remapChain (conf : Conf) : Bytes := conf.chainPrefix ++ str "DNSOR"

end Conf

/-- `build_iptables_rules`. -/
def linkCalls (chain set iface : Bytes) (mark : UInt32) : List Call :=
  [.registerOverride (str "filter") chain] ++
    (if iface = str "blackhole" then []
      else [.append (str "filter") chain [str "-o", iface, str "-m", str "set",
        str "--match-set", set, str "dst", str "-j", str "ACCEPT"]]) ++
    [.append (str "filter") (str "FORWARD") (jump chain),
      .registerOverride (str "mangle") chain,
      .append (str "mangle") chain
        [str "-m", str "conntrack", str "--ctdir", str "REPLY", str "-j", str "RETURN"],
      .append (str "mangle") chain [str "-m", str "set", str "--match-set", set, str "dst",
        str "-j", str "MARK", str "--set-mark", Libc.digits mark.toNat],
      .append (str "mangle") chain [str "-m", str "set", str "--match-set", set, str "dst",
        str "-j", str "CONNMARK", str "--save-mark"],
      .append (str "mangle") (str "PREROUTING") (jump chain),
      .registerOverride (str "nat") chain,
      .append (str "nat") chain
        [str "-m", str "set", str "--match-set", set, str "dst", str "-j", str "MASQUERADE"],
      .append (str "nat") (str "POSTROUTING") (jump chain)]

/-- The calls of `delete_iptables_rules`. -/
def unlinkCalls (chain : Bytes) : List Call :=
  [.registerDelete (str "filter") chain, .delete (str "filter") (str "FORWARD") (jump chain),
    .registerDelete (str "mangle") chain, .delete (str "mangle") (str "PREROUTING") (jump chain),
    .registerDelete (str "nat") chain, .delete (str "nat") (str "POSTROUTING") (jump chain)]

/-- `build_rules` of the port remap. -/
def remapCalls (chain : Bytes) (r : PortRemap) (f : Family) : List Call :=
  [.registerOverride (str "nat") chain] ++
    ((r.addrs.filter fun a => a.isOf f).flatMap fun a =>
      [.append (str "nat") chain (remapRule r (str "tcp") a),
        .append (str "nat") chain (remapRule r (str "udp") a)]) ++
    [.insert (str "nat") (str "PREROUTING") 1 (jump chain)]

/-- The calls of `delete_rules` of the port remap. -/
def unremapCalls (chain : Bytes) : List Call :=
  [.registerDelete (str "nat") chain, .delete (str "nat") (str "PREROUTING") (jump chain)]

/-- For names without blanks this is the staging of a rebuild. -/
theorem linkCalls_eq (p : Prefixes) (l : Rebuild.Link) (f : Family) :
    buildIptablesRules p l f =
      linkCalls (Rebuild.chainName p l.id) (Rebuild.ipsetName p l.id f) l.iface.bytes l.mark := rfl

theorem unlinkCalls_eq (p : Prefixes) (l : Rebuild.Link) :
    deleteIptablesRules p l = unlinkCalls (Rebuild.chainName p l.id) := rfl

theorem remapCalls_eq (p : Prefixes) (r : PortRemap) (f : Family) :
    buildRules p r f = remapCalls (Rebuild.remapChain p) r f := rfl

/-! ## The daemon's work on an engine -/

/-- What is configured: the links of the enabled groups and subscriptions, and the port remap. -/
structure Setup where
  conf : Conf
  links : List Link
  remap : Option PortRemap

/-- What is done to an engine between commits. -/
inductive Act where
  /-- `mt_netfilter_register_base_chains` -/
  | base
  /-- `build_iptables_rules` -/
  | link (l : Link)
  /-- `delete_iptables_rules` -/
  | unlink (l : Link)
  /-- `build_rules` of the port remap -/
  | remap (r : PortRemap)
  /-- `delete_rules` of the port remap -/
  | unremap
  /-- `clean_one`, with the rules it reads -/
  | clean (snap : Tables)

/-- The act is one for this setup; the kernel's names and rules are words. -/
def Act.Of (s : Setup) : Act → Prop
  | base => True
  | link l | unlink l => l ∈ s.links
  | remap r => s.remap = some r
  | unremap => s.remap.isSome
  | clean snap => snap.WF

def Act.run (conf : Conf) (f : Family) (ipt : Ipt) : Act → Ipt
  | base => Engine.baseChains.foldl (fun ipt b => registerChainPatch ipt b.1 b.2) ipt
  | link l => (untilErr call ipt
      (linkCalls (conf.chainName l.id) (conf.ipsetName l.id f) l.iface l.mark)).1
  | unlink l => (unlinkCalls (conf.chainName l.id)).foldl Call.step ipt
  | remap r => (untilErr call ipt (remapCalls conf.remapChain r f)).1
  | unremap => (unremapCalls conf.remapChain).foldl Call.step ipt
  | clean snap => (Engine.cleanTables conf.chainPrefix ipt snap).1

def engineAfter (s : Setup) (f : Family) (acts : List Act) : Ipt :=
  acts.foldl (Act.run s.conf f) iptNew

/-! ## Names that are words -/

def Plain (b : Bytes) : Prop := ∀ x ∈ b, isBlank x = false ∧ x ≠ 10

instance (b : Bytes) : Decidable (Plain b) :=
  inferInstanceAs (Decidable (∀ x ∈ b, isBlank x = false ∧ x ≠ 10))

theorem isToken_iff {b : Bytes} : IsToken b ↔ b ≠ [] ∧ Plain b := by
  constructor
  · intro h
    exact ⟨h.1.1, fun x hx => ⟨h.1.2 x hx, fun h10 => h.2 (h10 ▸ hx)⟩⟩
  · rintro ⟨hne, hplain⟩
    exact isToken_of_plain hne hplain

theorem plain_append {a b : Bytes} : Plain (a ++ b) ↔ Plain a ∧ Plain b := by
  unfold Plain
  rw [List.forall_mem_append]

theorem plain_format (id : Id) : Plain id.format := by
  obtain ⟨-, -, -, -, hmem⟩ := format_eq id
  exact fun x hx => plain_of_mem_digits (hmem x hx)

theorem plain_named (pre : Bytes) (id : Id) :
    Plain ((pre ++ id.format).take 127) ↔ Plain (pre.take 127) := by
  rw [List.take_append, plain_append]
  refine and_iff_left fun x hx => plain_format id x (List.mem_of_mem_take hx)

theorem isToken_chainName_iff (conf : Conf) (id : Id) :
    IsToken (conf.chainName id) ↔ Plain (conf.chainPrefix.take 127) := by
  rw [isToken_iff, Conf.chainName, plain_named]
  refine and_iff_right fun hnil => ?_
  have hlen := congrArg List.length hnil
  obtain ⟨ds, d, hfmt, -, -⟩ := format_eq id
  rw [hfmt, List.length_take, List.length_append, List.length_append, List.length_singleton,
    List.length_nil] at hlen
  omega

theorem isToken_ipsetName_iff (conf : Conf) (id : Id) (f : Family) :
    IsToken (conf.ipsetName id f) ↔ Plain (conf.tablePrefix.take 127) := by
  have hall : ∀ s : Bytes, s ≠ [] → Plain s →
      (IsToken ((conf.tablePrefix ++ id.format).take 127 ++ s) ↔
        Plain (conf.tablePrefix.take 127)) := by
    intro s hne hs
    rw [isToken_iff, plain_append, plain_named]
    simp [hne, hs]
  cases f
  · exact hall _ (by decide) (by decide +kernel)
  · exact hall _ (by decide) (by decide +kernel)

theorem isToken_remapChain_iff (conf : Conf) :
    IsToken conf.remapChain ↔ Plain conf.chainPrefix := by
  have hsuffix : Plain (str "DNSOR") := by decide +kernel
  rw [isToken_iff, Conf.remapChain, plain_append, and_iff_left hsuffix]
  exact and_iff_right (by simp [str])

/-- The names of the setup can stand in a script: no blank in a prefix that is used, and every
interface is one word or the blackhole, which no rule names. -/
structure Setup.Writable (s : Setup) : Prop where
  chainPrefix : s.links ≠ [] → Plain (s.conf.chainPrefix.take 127)
  tablePrefix : s.links ≠ [] → Plain (s.conf.tablePrefix.take 127)
  remap : s.remap.isSome → Plain s.conf.chainPrefix
  iface : ∀ l ∈ s.links, l.iface = str "blackhole" ∨ IsToken l.iface

/-! ## Writable names are read back -/

section Clean

variable {chain set iface : Bytes}

theorem isToken_args (hset : IsToken set) (mark : UInt32) {r : Iptables.Rule}
    (h : ∀ x ∈ r, x = set ∨ x = Libc.digits mark.toNat ∨ IsToken x) : ∀ x ∈ r, IsToken x := by
  intro x hx
  rcases h x hx with rfl | rfl | h
  · exact hset
  · exact isToken_digits mark.toNat
  · exact h

theorem clean_linkCalls (hchain : IsToken chain) (hset : IsToken set)
    (hiface : iface = str "blackhole" ∨ IsToken iface) (mark : UInt32) :
    ∀ call ∈ linkCalls chain set iface mark, call.Clean := by
  have hjump := isToken_jump hchain
  intro call hcall
  rw [linkCalls, List.mem_append, List.mem_append] at hcall
  rcases hcall with (hcall | hcall) | hcall
  · obtain rfl := List.mem_singleton.mp hcall
    exact ⟨by decide, hchain⟩
  · split at hcall
    · exact absurd hcall List.not_mem_nil
    · next hne =>
      obtain rfl := List.mem_singleton.mp hcall
      have hname := hiface.resolve_left hne
      refine ⟨by decide, hchain, isToken_args hset mark fun x hx => ?_⟩
      simp only [List.mem_cons, List.not_mem_nil, or_false] at hx
      rcases hx with rfl | rfl | rfl | rfl | rfl | rfl | rfl | rfl | rfl
      · exact .inr (.inr (by decide))
      · exact .inr (.inr hname)
      · exact .inr (.inr (by decide))
      · exact .inr (.inr (by decide))
      · exact .inr (.inr (by decide))
      · exact .inl rfl
      · exact .inr (.inr (by decide))
      · exact .inr (.inr (by decide))
      · exact .inr (.inr (by decide))
  · simp only [List.mem_cons, List.not_mem_nil, or_false] at hcall
    rcases hcall with rfl | rfl | rfl | rfl | rfl | rfl | rfl | rfl | rfl
    · exact ⟨by decide, by decide, hjump⟩
    · exact ⟨by decide, hchain⟩
    · exact ⟨by decide, hchain, by decide⟩
    · refine ⟨by decide, hchain, isToken_args hset mark ?_⟩
      simp [IsToken, Lib.Words.IsWord, isBlank, str]
    · refine ⟨by decide, hchain, isToken_args hset mark ?_⟩
      simp [IsToken, Lib.Words.IsWord, isBlank, str]
    · exact ⟨by decide, by decide, hjump⟩
    · exact ⟨by decide, hchain⟩
    · refine ⟨by decide, hchain, isToken_args hset mark ?_⟩
      simp [IsToken, Lib.Words.IsWord, isBlank, str]
    · exact ⟨by decide, by decide, hjump⟩

theorem clean_unlinkCalls (hchain : IsToken chain) : ∀ call ∈ unlinkCalls chain, call.Clean := by
  have hjump := isToken_jump hchain
  intro call hcall
  simp only [unlinkCalls, List.mem_cons, List.not_mem_nil, or_false] at hcall
  rcases hcall with rfl | rfl | rfl | rfl | rfl | rfl
  · exact ⟨by decide, hchain⟩
  · exact ⟨by decide, by decide, hjump⟩
  · exact ⟨by decide, hchain⟩
  · exact ⟨by decide, by decide, hjump⟩
  · exact ⟨by decide, hchain⟩
  · exact ⟨by decide, by decide, hjump⟩

theorem clean_remapCalls (hchain : IsToken chain) (r : PortRemap) (f : Family) :
    ∀ call ∈ remapCalls chain r f, call.Clean := by
  intro call hcall
  rw [remapCalls, List.mem_append, List.mem_append] at hcall
  rcases hcall with (hcall | hcall) | hcall
  · obtain rfl := List.mem_singleton.mp hcall
    exact ⟨by decide, hchain⟩
  · obtain ⟨a, -, hcall⟩ := List.mem_flatMap.mp hcall
    simp only [List.mem_cons, List.not_mem_nil, or_false] at hcall
    rcases hcall with rfl | rfl
    · exact ⟨by decide, hchain, isToken_remapRule (by decide) r a⟩
    · exact ⟨by decide, hchain, isToken_remapRule (by decide) r a⟩
  · obtain rfl := List.mem_singleton.mp hcall
    exact ⟨by decide, by decide, by decide, isToken_jump hchain⟩

theorem clean_unremapCalls (hchain : IsToken chain) : ∀ call ∈ unremapCalls chain, call.Clean := by
  intro call hcall
  simp only [unremapCalls, List.mem_cons, List.not_mem_nil, or_false] at hcall
  rcases hcall with rfl | rfl
  · exact ⟨by decide, hchain⟩
  · exact ⟨by decide, by decide, isToken_jump hchain⟩

end Clean

section Words

variable {s : Setup} {f : Family} {ipt : Ipt}

theorem wf_untilErr (h : ipt.WF) {calls : List Call} (hcalls : ∀ call ∈ calls, call.Clean) :
    (untilErr call ipt calls).1.WF := by
  refine Lib.Runs.untilErr_inv (I := Ipt.WF) (fun ipt c hc hipt => ?_) h
  rw [call_fst]
  exact hipt.step (hcalls c hc)

/-- The cleaner stages words of the kernel's rules. -/
theorem wf_cleanTables (h : ipt.WF) (pre : Bytes) {snap : Tables} (hsnap : snap.WF) :
    (Engine.cleanTables pre ipt snap).1.WF := by
  refine Lib.Runs.untilErr_inv (I := Ipt.WF) (fun ipt t ht hipt => ?_) h
  refine Lib.Runs.untilErr_inv (I := Ipt.WF) (fun ipt c hc hipt => ?_) hipt
  have htable := (hsnap.tables t ht).name
  have hchain := (hsnap.tables t ht).chains c hc
  unfold Engine.cleanChain
  split
  · exact hipt.registerChain htable hchain.name trivial
  · refine Lib.Runs.untilErr_inv (I := Ipt.WF) (fun ipt r hr hipt => ?_) hipt
    have hrule := hchain.rules r (List.mem_filter.mp hr).1
    have hdelete : (Call.delete t.name c.name r).Clean := ⟨htable, hchain.name, hrule⟩
    rcases cleanRule_eq t.name c.name ipt r with ⟨-, heq⟩ | ⟨-, heq⟩
    · rw [heq]
      exact hipt.step hdelete
    · rw [heq]
      refine hipt.run fun x hx => ?_
      simp only [List.mem_cons, List.not_mem_nil, or_false] at hx
      rcases hx with rfl | rfl
      · exact ⟨htable, hchain.name⟩
      · exact hdelete

theorem wf_run (hs : s.Writable) (h : ipt.WF) {a : Act} (ha : a.Of s) :
    (a.run s.conf f ipt).WF := by
  cases a with
  | base =>
    have hbase : Act.run s.conf f ipt .base =
        (Engine.baseChains.map fun b => Call.registerPatch b.1 b.2).foldl Call.step ipt := rfl
    rw [hbase]
    refine h.run fun c hc => ?_
    obtain ⟨b, hmem, rfl⟩ := List.mem_map.mp hc
    exact (by decide : ∀ b ∈ Engine.baseChains, (Call.registerPatch b.1 b.2).Clean) b hmem
  | link l =>
    have hne : s.links ≠ [] := List.ne_nil_of_mem ha
    exact wf_untilErr h (clean_linkCalls ((isToken_chainName_iff _ _).mpr (hs.chainPrefix hne))
      ((isToken_ipsetName_iff _ _ _).mpr (hs.tablePrefix hne)) (hs.iface l ha) l.mark)
  | unlink l =>
    have hne : s.links ≠ [] := List.ne_nil_of_mem ha
    exact h.run (clean_unlinkCalls ((isToken_chainName_iff _ _).mpr (hs.chainPrefix hne)))
  | remap r =>
    have hsome : s.remap.isSome := by
      rw [show s.remap = some r from ha]
      rfl
    exact wf_untilErr h (clean_remapCalls ((isToken_remapChain_iff _).mpr (hs.remap hsome)) r f)
  | unremap => exact h.run (clean_unremapCalls ((isToken_remapChain_iff _).mpr (hs.remap ha)))
  | clean snap => exact wf_cleanTables h _ ha

theorem wf_engineAfter (hs : s.Writable) {acts : List Act} (hacts : ∀ a ∈ acts, a.Of s) :
    (engineAfter s f acts).WF := by
  unfold engineAfter
  have hnew := Ipt.WF.iptNew
  generalize iptNew = ipt at hnew
  induction acts generalizing ipt with
  | nil => exact hnew
  | cons a acts ih =>
    rw [List.foldl_cons]
    exact ih (fun x hx => hacts x (List.mem_cons_of_mem _ hx)) _
      (wf_run hs hnew (hacts a (List.mem_cons_self ..)))

end Words

/-! ## Other names are not -/

section Staged

variable {t c : Bytes}

/-- Every call is a registration or about a chain known before. -/
def Fits (known : List (Bytes × Bytes)) : List Call → Prop
  | [] => True
  | call :: calls =>
    ((∃ t c, call = .registerOverride t c) ∨ call.key ∈ known) ∧ Fits (call.key :: known) calls

theorem call_of_known {ipt : Ipt} {x : Call}
    (h : (∃ t c, x = .registerOverride t c) ∨ (findChain ipt x.key.1 x.key.2).isSome) :
    call ipt x = (x.step ipt, none) := by
  have hdispatch : ∀ {t c : Bytes} (op : Chain → Chain), (findChain ipt t c).isSome →
      ∃ ipt', dispatchRuleOp ipt t c op = .ok ipt' := by
    intro t c op hsome
    obtain ⟨ch, hch⟩ := Option.isSome_iff_exists.mp hsome
    exact ⟨_, by rw [dispatchRuleOp, hch]⟩
  have hrun : ∃ ipt', x.run ipt = .ok ipt' := by
    rcases h with ⟨t, c, rfl⟩ | h
    · exact ⟨_, rfl⟩
    · cases x with
      | registerOverride t c => exact ⟨_, rfl⟩
      | registerPatch t c => exact ⟨_, rfl⟩
      | registerDelete t c => exact ⟨_, rfl⟩
      | append t c r => exact hdispatch _ h
      | insert t c num r => exact hdispatch _ h
      | delete t c r => exact hdispatch _ h
  obtain ⟨ipt', hrun⟩ := hrun
  unfold call Call.step
  rw [hrun]
  rfl

theorem isSome_at {x : Call} {v : Option Chain} (h : v.isSome) : (x.at t c v).isSome := by
  cases x <;>
    · rw [Call.at]
      split <;> simp [h]

theorem untilErr_of_fits {calls : List Call} {known : List (Bytes × Bytes)} {ipt : Ipt}
    (hknown : ∀ k ∈ known, (findChain ipt k.1 k.2).isSome) (h : Fits known calls) :
    untilErr call ipt calls = (calls.foldl Call.step ipt, none) := by
  induction calls generalizing known ipt with
  | nil => rfl
  | cons x calls ih =>
    obtain ⟨hx, hcalls⟩ := h
    have hx' : (∃ t c, x = .registerOverride t c) ∨ (findChain ipt x.key.1 x.key.2).isSome :=
      hx.imp_right (hknown _)
    rw [Lib.Runs.untilErr, call_of_known hx']
    refine ih (fun k hk => ?_) hcalls
    rw [Call.findChain_step]
    rcases List.mem_cons.mp hk with rfl | hk
    · rcases hx' with ⟨t, c, rfl⟩ | hsome
      · simp [Call.at, Call.key]
      · exact isSome_at hsome
    · exact isSome_at (hknown k hk)

/-- The staged chain is an override chain with the rule. -/
def Has (r : Iptables.Rule) (v : Option Chain) : Prop :=
  ∃ rules, v = some (.override rules) ∧ r ∈ rules

/-- A call that takes no rule out of the chains of a table. -/
def Keeps (t : Bytes) (x : Call) : Prop :=
  (∃ t' c' r, x = .append t' c' r) ∨ ∃ t' c', x = .registerOverride t' c' ∧ t' ≠ t

theorem Has.at {r : Iptables.Rule} {v : Option Chain} (h : Has r v) {x : Call} (hx : Keeps t x) :
    Has r (x.at t c v) := by
  obtain ⟨rules, rfl, hr⟩ := h
  rcases hx with ⟨t', c', r', rfl⟩ | ⟨t', c', rfl, hne⟩
  · rw [Call.at]
    split
    · exact ⟨rules ++ [r'], rfl, List.mem_append_left _ hr⟩
    · exact ⟨rules, rfl, hr⟩
  · have hother : ¬ (t = t' ∧ c = c') := fun hh => hne hh.1.symm
    rw [Call.at, if_neg hother]
    exact ⟨rules, rfl, hr⟩

theorem Has.foldl {r : Iptables.Rule} {v : Option Chain} (h : Has r v) {calls : List Call}
    (hcalls : ∀ x ∈ calls, Keeps t x) : Has r (calls.foldl (fun v x => x.at t c v) v) := by
  induction calls generalizing v with
  | nil => exact h
  | cons x calls ih =>
    exact ih (h.at (hcalls x (List.mem_cons_self ..))) fun y hy =>
      hcalls y (List.mem_cons_of_mem _ hy)

/-- A rule that is appended after the registration is staged. -/
theorem has_of_split {pre mid post : List Call} {r : Iptables.Rule} (v : Option Chain)
    (hmid : ∀ x ∈ mid, ∃ r', x = .append t c r') (hpost : ∀ x ∈ post, Keeps t x) :
    Has r ((pre ++ .registerOverride t c :: mid ++ .append t c r :: post).foldl
      (fun v x => x.at t c v) v) := by
  have hrules : ∀ rules, ∃ rules', mid.foldl (fun v x => x.at t c v) (some (.override rules)) =
      some (.override rules') := by
    induction mid with
    | nil => exact fun rules => ⟨rules, rfl⟩
    | cons x mid ih =>
      intro rules
      obtain ⟨r', rfl⟩ := hmid x (List.mem_cons_self ..)
      rw [List.foldl_cons]
      have hat : (Call.append t c r').at t c (some (.override rules)) =
          some (.override (rules ++ [r'])) := by simp [Call.at, Chain.append]
      rw [hat]
      exact ih (fun y hy => hmid y (List.mem_cons_of_mem _ hy)) _
  obtain ⟨rules, hmid'⟩ := hrules []
  rw [List.append_assoc, List.foldl_append, List.cons_append, List.foldl_cons, List.foldl_append,
    List.foldl_cons]
  have hreg : ∀ v, (Call.registerOverride t c).at t c v = some (.override []) := by
    intro v
    simp [Call.at]
  rw [hreg, hmid']
  refine Has.foldl ⟨rules ++ [r], ?_, by simp⟩ hpost
  simp [Call.at, Chain.append]

/-- What is staged in an override chain is read back from the script for an empty kernel only if
it consists of words. -/
theorem words_of_staged {ipt : Ipt} {r : Iptables.Rule} (hr : Has r (findChain ipt t c))
    (hread : readScript (transcript ipt []) = .ok (intended ipt [])) :
    IsToken c ∧ ∀ a ∈ r, IsToken a := by
  obtain ⟨rules, hf, hr⟩ := hr
  have hempty : chainOf [] t c ≠ some rules := by simp [chainOf]
  have hitem := (mem_intended_override hf hempty).2 r hr
  exact (words_of_mem_readScript hread _ hitem).2

end Staged

section Exact

variable {s : Setup} {f : Family}

/-- The engine after the base chains. -/
def baseEngine : Ipt := Engine.baseChains.foldl (fun ipt b => registerChainPatch ipt b.1 b.2) iptNew

theorem known_baseEngine : ∀ k ∈ Engine.baseChains, (findChain baseEngine k.1 k.2).isSome := by
  decide +kernel

theorem fits_linkCalls (chain set iface : Bytes) (mark : UInt32) :
    Fits Engine.baseChains (linkCalls chain set iface mark) := by
  unfold linkCalls
  split <;> simp [Fits, Call.key, Engine.baseChains]

section LinkCalls

variable (chain set iface : Bytes) (mark : UInt32) (v : Option Chain)

theorem has_filter (h : iface ≠ str "blackhole") :
    Has [str "-o", iface, str "-m", str "set", str "--match-set", set, str "dst", str "-j",
        str "ACCEPT"]
      ((linkCalls chain set iface mark).foldl (fun v x => x.at (str "filter") chain v) v) := by
  have hsplit : linkCalls chain set iface mark =
      [] ++ Call.registerOverride (str "filter") chain :: [] ++
        Call.append (str "filter") chain [str "-o", iface, str "-m", str "set", str "--match-set", set,
          str "dst", str "-j", str "ACCEPT"] :: (linkCalls chain set iface mark).drop 2 := by
    rw [linkCalls, if_neg h]
    rfl
  rw [hsplit]
  refine has_of_split v (by simp) ?_
  rw [linkCalls, if_neg h]
  intro x hx
  simp only [List.cons_append, List.nil_append, List.drop_succ_cons, List.drop_zero,
    List.mem_cons, List.not_mem_nil, or_false] at hx
  rcases hx with rfl | rfl | rfl | rfl | rfl | rfl | rfl | rfl | rfl
  · exact .inl ⟨_, _, _, rfl⟩
  · exact .inr ⟨_, _, rfl, by decide⟩
  · exact .inl ⟨_, _, _, rfl⟩
  · exact .inl ⟨_, _, _, rfl⟩
  · exact .inl ⟨_, _, _, rfl⟩
  · exact .inl ⟨_, _, _, rfl⟩
  · exact .inr ⟨_, _, rfl, by decide⟩
  · exact .inl ⟨_, _, _, rfl⟩
  · exact .inl ⟨_, _, _, rfl⟩

theorem has_mangle :
    Has [str "-m", str "set", str "--match-set", set, str "dst", str "-j", str "MARK",
        str "--set-mark", Libc.digits mark.toNat]
      ((linkCalls chain set iface mark).foldl (fun v x => x.at (str "mangle") chain v) v) := by
  have hsplit : ∃ pre : List Call, linkCalls chain set iface mark =
      pre ++ Call.registerOverride (str "mangle") chain ::
        [Call.append (str "mangle") chain
          [str "-m", str "conntrack", str "--ctdir", str "REPLY", str "-j", str "RETURN"]] ++
        Call.append (str "mangle") chain [str "-m", str "set", str "--match-set", set, str "dst",
          str "-j", str "MARK", str "--set-mark", Libc.digits mark.toNat] ::
        [Call.append (str "mangle") chain [str "-m", str "set", str "--match-set", set, str "dst",
            str "-j", str "CONNMARK", str "--save-mark"],
          Call.append (str "mangle") (str "PREROUTING") (jump chain),
          Call.registerOverride (str "nat") chain,
          Call.append (str "nat") chain
            [str "-m", str "set", str "--match-set", set, str "dst", str "-j", str "MASQUERADE"],
          Call.append (str "nat") (str "POSTROUTING") (jump chain)] := by
    unfold linkCalls
    split <;> simp only [List.append_assoc, List.nil_append, List.cons_append]
    · exact ⟨[_, _], rfl⟩
    · exact ⟨[_, _, _], rfl⟩
  obtain ⟨pre, hsplit⟩ := hsplit
  rw [hsplit]
  refine has_of_split v (by simp) fun x hx => ?_
  simp only [List.mem_cons, List.not_mem_nil, or_false] at hx
  rcases hx with rfl | rfl | rfl | rfl | rfl
  · exact .inl ⟨_, _, _, rfl⟩
  · exact .inl ⟨_, _, _, rfl⟩
  · exact .inr ⟨_, _, rfl, by decide⟩
  · exact .inl ⟨_, _, _, rfl⟩
  · exact .inl ⟨_, _, _, rfl⟩

end LinkCalls

/-- The engine that has only the link `l` staged reads back if its names are words. -/
theorem words_of_link {conf : Conf} {l : Link}
    (hread : readScript (transcript (Act.run conf f baseEngine (.link l)) []) =
      .ok (intended (Act.run conf f baseEngine (.link l)) [])) :
    IsToken (conf.chainName l.id) ∧ IsToken (conf.ipsetName l.id f) ∧
      (l.iface = str "blackhole" ∨ IsToken l.iface) := by
  have hrun : Act.run conf f baseEngine (.link l) =
      (linkCalls (conf.chainName l.id) (conf.ipsetName l.id f) l.iface l.mark).foldl Call.step
        baseEngine := by
    rw [Act.run, untilErr_of_fits known_baseEngine (fits_linkCalls ..)]
  have hfind : ∀ t, findChain (Act.run conf f baseEngine (.link l)) t (conf.chainName l.id) =
      (linkCalls (conf.chainName l.id) (conf.ipsetName l.id f) l.iface l.mark).foldl
        (fun v x => x.at t (conf.chainName l.id) v)
        (findChain baseEngine t (conf.chainName l.id)) := by
    intro t
    rw [hrun, findChain_foldl_step]
  have hmangle := has_mangle (conf.chainName l.id) (conf.ipsetName l.id f) l.iface l.mark
    (findChain baseEngine (str "mangle") (conf.chainName l.id))
  rw [← hfind] at hmangle
  obtain ⟨hchain, hargs⟩ := words_of_staged hmangle hread
  refine ⟨hchain, hargs _ (by simp), ?_⟩
  by_cases hblack : l.iface = str "blackhole"
  · exact .inl hblack
  · have hfilter := has_filter (conf.chainName l.id) (conf.ipsetName l.id f) l.iface l.mark
      (findChain baseEngine (str "filter") (conf.chainName l.id)) hblack
    rw [← hfind] at hfilter
    exact .inr ((words_of_staged hfilter hread).2 _ (by simp))

theorem override_remap (conf : Conf) (r : PortRemap) :
    ∃ rules, findChain (Act.run conf f baseEngine (.remap r)) (str "nat") conf.remapChain =
      some (.override rules) := by
  have hfirst : Act.run conf f baseEngine (.remap r) =
      (untilErr call (registerChainOverride baseEngine (str "nat") conf.remapChain)
        (((r.addrs.filter fun a => a.isOf f).flatMap fun a =>
          [.append (str "nat") conf.remapChain (remapRule r (str "tcp") a),
            .append (str "nat") conf.remapChain (remapRule r (str "udp") a)]) ++
          [.insert (str "nat") (str "PREROUTING") 1 (jump conf.remapChain)])).1 := rfl
  rw [hfirst]
  refine Lib.Runs.untilErr_inv (I := fun ipt => ∃ rules,
    findChain ipt (str "nat") conf.remapChain = some (.override rules)) ?_ ⟨[], ?_⟩
  · rintro ipt x hx ⟨rules, hrules⟩
    rw [call_fst, Call.findChain_step, hrules]
    have hadds : (∃ t c r', x = .append t c r') ∨ ∃ t c num r', x = .insert t c num r' := by
      rcases List.mem_append.mp hx with hx | hx
      · obtain ⟨a, -, hx⟩ := List.mem_flatMap.mp hx
        simp only [List.mem_cons, List.not_mem_nil, or_false] at hx
        rcases hx with rfl | rfl
        · exact .inl ⟨_, _, _, rfl⟩
        · exact .inl ⟨_, _, _, rfl⟩
      · exact .inr ⟨_, _, _, _, List.mem_singleton.mp hx⟩
    rcases hadds with ⟨t, c, r', rfl⟩ | ⟨t, c, num, r', rfl⟩
    · rw [Call.at]
      split
      · exact ⟨rules ++ [r'], rfl⟩
      · exact ⟨rules, rfl⟩
    · rw [Call.at]
      split
      · rw [Option.map_some, Chain.insert]
        split
        · exact ⟨rules, rfl⟩
        · exact ⟨_, rfl⟩
      · exact ⟨rules, rfl⟩
  · rw [registerChainOverride, findChain_registerChain, if_pos ⟨rfl, rfl⟩]

theorem words_of_remap {conf : Conf} {r : PortRemap}
    (hread : readScript (transcript (Act.run conf f baseEngine (.remap r)) []) =
      .ok (intended (Act.run conf f baseEngine (.remap r)) [])) : IsToken conf.remapChain := by
  obtain ⟨rules, hf⟩ := override_remap (f := f) conf r
  have hempty : chainOf [] (str "nat") conf.remapChain ≠ some rules := by simp [chainOf]
  have hitem := (mem_intended_override hf hempty).1
  exact (words_of_mem_readScript hread _ hitem).2.1

end Exact

/-- Whatever the daemon does with the configured links and whatever the kernel holds, the script of
a commit reads back as the compiled commands, if and only if the configured names are writable. -/
theorem transcripts_exact_iff (s : Setup) (f : Family) :
    (∀ acts, (∀ a ∈ acts, a.Of s) → ∀ cur,
      readScript (transcript (engineAfter s f acts) cur) =
        .ok (intended (engineAfter s f acts) cur)) ↔ s.Writable := by
  constructor
  · intro h
    have hlink : ∀ l ∈ s.links, IsToken (s.conf.chainName l.id) ∧
        IsToken (s.conf.ipsetName l.id f) ∧ (l.iface = str "blackhole" ∨ IsToken l.iface) := by
      intro l hl
      have hof : ∀ a ∈ [Act.base, .link l], a.Of s := by
        simp [Act.Of, hl]
      exact words_of_link (h [.base, .link l] hof [])
    refine ⟨fun hne => ?_, fun hne => ?_, fun hsome => ?_, fun l hl => (hlink l hl).2.2⟩
    · obtain ⟨l, hl⟩ := List.exists_mem_of_ne_nil _ hne
      exact (isToken_chainName_iff _ _).mp (hlink l hl).1
    · obtain ⟨l, hl⟩ := List.exists_mem_of_ne_nil _ hne
      exact (isToken_ipsetName_iff _ _ _).mp (hlink l hl).2.1
    · obtain ⟨r, hr⟩ := Option.isSome_iff_exists.mp hsome
      have hof : ∀ a ∈ [Act.base, .remap r], a.Of s := by
        simp [Act.Of, hr]
      exact (isToken_remapChain_iff _).mp (words_of_remap (h [.base, .remap r] hof []))
  · intro hs acts hacts cur
    exact readScript_transcript (wf_engineAfter hs hacts) cur

def brokenSetup : Setup where
  conf := ⟨str "MT_", str "mt_"⟩
  links := [⟨⟨1, 2, 3, 4⟩, str "br0\n-A FORWARD -j ACCEPT", 1⟩]
  remap := none

theorem interface_breaks_script :
    ¬ ∀ (s : Setup) (f : Family) (acts : List Act), (∀ a ∈ acts, a.Of s) → ∀ cur,
      readScript (transcript (engineAfter s f acts) cur) =
        .ok (intended (engineAfter s f acts) cur) := by
  intro h
  have hread := h brokenSetup .v4
    [.base, .link ⟨⟨1, 2, 3, 4⟩, str "br0\n-A FORWARD -j ACCEPT", 1⟩]
    (by simp [Act.Of, brokenSetup]) []
  revert hread
  decide +kernel

end MagiTrickle.GroupScript
