import MagiTrickle.Netfilter.Rebuild

/-!
# What the daemon has staged

The engines of the daemon only ever hold what its histories can put there
(`Staged`): chains to be filled belong to something that is enabled, chains to
be deleted have the prefix, and apart from deletions the entries of the base
chains are jumps to the chains of something that is enabled. `inv_after` is
this invariant over every history.
-/

namespace MagiTrickle.Rebuild

open Iptables
open Netfilter (Family)
open Lib.Runs

/-! ## Names -/

section Names

variable (p : Prefixes)

theorem hexDigit_mem (n : UInt8) : Id.hexDigit n ∈ 0 :: str "0123456789abcdef" := by
  unfold Id.hexDigit
  rw [List.getD_eq_getElem?_getD]
  cases h : (str "0123456789abcdef")[n.toNat]? with
  | none => exact List.mem_cons_self ..
  | some x => exact List.mem_cons_of_mem _ (List.mem_of_getElem? h)

theorem format_eq (id : Id) : ∃ ds : Bytes, ∃ d, id.format = ds ++ [d] ∧ ds.length = 7 ∧
    ∀ x ∈ id.format, x ∈ 0 :: str "0123456789abcdef" := by
  refine ⟨id.format.dropLast, Id.hexDigit (id.b3 &&& 0x0f), rfl, rfl, ?_⟩
  intro x hx
  obtain ⟨b, -, hx⟩ := List.mem_flatMap.mp hx
  simp only [List.mem_cons, List.not_mem_nil, or_false] at hx
  rcases hx with rfl | rfl <;> exact hexDigit_mem _

theorem chainName_eq (id : Id) : chainName p id = p.chain ++ id.format := by
  obtain ⟨ds, d, h, hlen, -⟩ := format_eq id
  apply List.take_of_length_le
  have := p.short
  simp only [h, List.length_append, hlen, List.length_singleton]
  omega

theorem isOwn_chainName (id : Id) : Engine.isOwn p.chain (chainName p id) = true := by
  rw [chainName_eq]
  exact decide_eq_true (List.prefix_append ..)

theorem isOwn_remapChain : Engine.isOwn p.chain (remapChain p) = true :=
  decide_eq_true (List.prefix_append ..)

theorem getLast?_chainName (id : Id) :
    ∃ d ∈ (0 : UInt8) :: str "0123456789abcdef", (chainName p id).getLast? = some d := by
  obtain ⟨ds, d, h, -, hmem⟩ := format_eq id
  refine ⟨d, hmem d (by simp [h]), ?_⟩
  rw [chainName_eq, h, ← List.append_assoc, List.getLast?_concat]

theorem getLast?_remapChain : (remapChain p).getLast? = some 82 := by
  rw [remapChain, show str "DNSOR" = str "DNSO" ++ [82] from rfl, ← List.append_assoc,
    List.getLast?_concat]

theorem chainName_ne {id : Id} {c : Bytes} {x : UInt8} (hc : c.getLast? = some x)
    (hx : x ∉ (0 : UInt8) :: str "0123456789abcdef") : c ≠ chainName p id := by
  rintro rfl
  obtain ⟨d, hd, hlast⟩ := getLast?_chainName p id
  rw [hc] at hlast
  cases hlast
  exact hx hd

theorem baseChains_ne_chainName {t c : Bytes} (h : (t, c) ∈ Engine.baseChains) (id : Id) :
    c ≠ chainName p id := by
  simp only [Engine.baseChains, List.mem_cons, Prod.mk.injEq, List.not_mem_nil, or_false] at h
  rcases h with ⟨-, rfl⟩ | ⟨-, rfl⟩ | ⟨-, rfl⟩ | ⟨-, rfl⟩
  · exact chainName_ne p (x := 68) rfl (by decide)
  · exact chainName_ne p (x := 71) rfl (by decide)
  · exact chainName_ne p (x := 71) rfl (by decide)
  · exact chainName_ne p (x := 71) rfl (by decide)

theorem baseChains_ne_remapChain {t c : Bytes} (h : (t, c) ∈ Engine.baseChains) :
    c ≠ remapChain p := by
  rintro rfl
  have hlast := getLast?_remapChain p
  simp only [Engine.baseChains, List.mem_cons, Prod.mk.injEq, List.not_mem_nil, or_false] at h
  rcases h with ⟨-, h⟩ | ⟨-, h⟩ | ⟨-, h⟩ | ⟨-, h⟩ <;>
    · rw [h] at hlast
      exact absurd hlast (by decide)

theorem isToken_of_plain {b : Bytes} (hne : b ≠ []) (h : ∀ x ∈ b, isBlank x = false ∧ x ≠ 10) :
    IsToken b :=
  ⟨⟨hne, fun x hx => (h x hx).1⟩, fun hx => (h 10 hx).2 rfl⟩

theorem plain_of_mem_digits {x : UInt8} (h : x ∈ (0 : UInt8) :: str "0123456789abcdef") :
    isBlank x = false ∧ x ≠ 10 :=
  (by decide +kernel : ∀ x ∈ (0 : UInt8) :: str "0123456789abcdef", isBlank x = false ∧ x ≠ 10) x h

theorem isToken_chainName (id : Id) : IsToken (chainName p id) := by
  obtain ⟨ds, d, h, -, hmem⟩ := format_eq id
  rw [chainName_eq]
  refine isToken_of_plain (by simp [h]) fun x hx => ?_
  rcases List.mem_append.mp hx with hx | hx
  · exact p.plain x (List.mem_append_left _ hx)
  · exact plain_of_mem_digits (hmem x hx)

theorem isToken_remapChain : IsToken (remapChain p) := by
  refine isToken_of_plain (by simp [remapChain, str]) fun x hx => ?_
  rcases List.mem_append.mp hx with hx | hx
  · exact p.plain x (List.mem_append_left _ hx)
  · exact (by decide +kernel : ∀ x ∈ str "DNSOR", isBlank x = false ∧ x ≠ 10) x hx

theorem isToken_ipsetName (id : Id) (f : Family) : IsToken (ipsetName p id f) := by
  have hplain : ∀ x ∈ (p.table ++ id.format).take 127, isBlank x = false ∧ x ≠ 10 := by
    intro x hx
    rcases List.mem_append.mp (List.mem_of_mem_take hx) with hx | hx
    · exact p.plain x (List.mem_append_right _ hx)
    · obtain ⟨-, -, -, -, hmem⟩ := format_eq id
      exact plain_of_mem_digits (hmem x hx)
  have hall : ∀ s : Bytes, s ≠ [] → (∀ x ∈ s, isBlank x = false ∧ x ≠ 10) →
      IsToken ((p.table ++ id.format).take 127 ++ s) := by
    intro s hne hs
    refine isToken_of_plain (by simp [hne]) fun x hx => ?_
    rcases List.mem_append.mp hx with hx | hx
    · exact hplain x hx
    · exact hs x hx
  cases f
  · exact hall _ (by decide) (by decide +kernel)
  · exact hall _ (by decide) (by decide +kernel)

theorem isToken_digits (n : Nat) : IsToken (Libc.digits n) := by
  refine isToken_of_plain (Libc.digits_ne_nil n) fun x hx => ?_
  have hdigit := Libc.isDigit_digits n x hx
  refine ⟨decide_eq_false ?_, ?_⟩
  · rintro (rfl | rfl) <;> cases hdigit
  · rintro rfl
    cases hdigit

theorem isJump_jump {c : Bytes} (h : Engine.isOwn p.chain c = true) :
    Engine.isJump p.chain (jump c) = true := by
  refine decide_eq_true (List.IsPrefix.isInfix ?_)
  have hpre : p.chain <+: c := of_decide_eq_true h
  have htext : ruleString (jump c) = str "-j " ++ c := by
    simp [ruleString, jump, Lib.Words.unwords_cons_cons, str]
  rw [htext]
  exact ( List.take_prefix ..).trans ((List.prefix_append_right_inj _).mpr hpre)

end Names

/-! ## The invariant of an engine -/

def linkTables : List Bytes := [str "filter", str "mangle", str "nat"]

def linkBases : List (Bytes × Bytes) :=
  [(str "filter", str "FORWARD"), (str "mangle", str "PREROUTING"), (str "nat", str "POSTROUTING")]

def remapBase : Bytes × Bytes := (str "nat", str "PREROUTING")

/-- An entry of a patch chain that deletes, or jumps to something that is enabled: a link with an
id in `A`, or the port remap where `B`. -/
def EntryStaged (p : Prefixes) (A : Id → Prop) (B : Prop) (t c : Bytes) (e : PatchEntry) : Prop :=
  e.option = .delete ∨
    (e.option = .append ∧ (t, c) ∈ linkBases ∧ ∃ id, A id ∧ e.rule = jump (chainName p id)) ∨
    (e.option = .insert ∧ (t, c) = remapBase ∧ B ∧ e.rule = jump (remapChain p))

/-- What a chain of the engine can be staged as. -/
def ChainStaged (p : Prefixes) (A : Id → Prop) (B : Prop) (t c : Bytes) : Chain → Prop
  | .override _ =>
    (t ∈ linkTables ∧ ∃ id, A id ∧ c = chainName p id) ∨ (B ∧ t = str "nat" ∧ c = remapChain p)
  | .delete => Engine.isOwn p.chain c = true
  | .patch es =>
    ((t, c) ∈ Engine.baseChains ∨ Engine.isOwn p.chain c = false) ∧ ∀ e ∈ es, EntryStaged p A B t c e

def Staged (p : Prefixes) (A : Id → Prop) (B : Prop) (ipt : Ipt) : Prop :=
  ∀ t c ch, findChain ipt t c = some ch → ChainStaged p A B t c ch

/-- The calls the daemon makes while `A` and `B` are, or are being, enabled. -/
def Allowed (p : Prefixes) (A : Id → Prop) (B : Prop) : Call → Prop
  | .registerOverride t c =>
    (t ∈ linkTables ∧ ∃ id, A id ∧ c = chainName p id) ∨ (B ∧ t = str "nat" ∧ c = remapChain p)
  | .registerPatch t c => (t, c) ∈ Engine.baseChains ∨ Engine.isOwn p.chain c = false
  | .registerDelete _ c => Engine.isOwn p.chain c = true
  | .append t c r =>
    ((t, c) ∉ Engine.baseChains ∧ Engine.isOwn p.chain c = true) ∨
      ((t, c) ∈ linkBases ∧ ∃ id, A id ∧ r = jump (chainName p id))
  | .insert t c _ r => (t, c) = remapBase ∧ B ∧ r = jump (remapChain p)
  | .delete _ _ _ => True

section Staged

variable {p : Prefixes} {A A' : Id → Prop} {B B' : Prop} {ipt : Ipt} {t c : Bytes}

theorem EntryStaged.mono (hA : ∀ id, A id → A' id) (hB : B → B') {e : PatchEntry}
    (h : EntryStaged p A B t c e) : EntryStaged p A' B' t c e := by
  rcases h with h | ⟨ho, hb, id, hid, hr⟩ | ⟨ho, hb, hB', hr⟩
  · exact .inl h
  · exact .inr (.inl ⟨ho, hb, id, hA id hid, hr⟩)
  · exact .inr (.inr ⟨ho, hb, hB hB', hr⟩)

theorem Staged.mono (hA : ∀ id, A id → A' id) (hB : B → B') (h : Staged p A B ipt) :
    Staged p A' B' ipt := by
  intro t c ch hf
  have hch := h t c ch hf
  cases ch with
  | override rules =>
    rcases hch with ⟨ht, id, hid, hc⟩ | ⟨hB', hc⟩
    · exact .inl ⟨ht, id, hA id hid, hc⟩
    · exact .inr ⟨hB hB', hc⟩
  | delete => exact hch
  | patch es => exact ⟨hch.1, fun e he => (hch.2 e he).mono hA hB⟩

theorem staged_iptNew : Staged p A B iptNew := fun _ _ _ h => nomatch h

theorem mem_addRule {es : List PatchEntry} {e x : PatchEntry} (h : x ∈ addRule es e) :
    (x ∈ es ∧ x.rule ≠ e.rule) ∨ x = e := by
  rcases List.mem_append.mp h with h | h
  · obtain ⟨h, hne⟩ := List.mem_filter.mp h
    exact .inl ⟨h, by simpa using hne⟩
  · exact .inr (List.mem_singleton.mp h)

theorem EntryStaged.addRule {es : List PatchEntry} (h : ∀ e ∈ es, EntryStaged p A B t c e)
    {e : PatchEntry} (he : EntryStaged p A B t c e) :
    ∀ x ∈ Iptables.addRule es e, EntryStaged p A B t c x := by
  intro x hx
  rcases mem_addRule hx with ⟨hx, -⟩ | rfl
  · exact h x hx
  · exact he

theorem ChainStaged.append {ch : Chain} (h : ChainStaged p A B t c ch) {r : Iptables.Rule}
    (ha : Allowed p A B (.append t c r)) : ChainStaged p A B t c (ch.append r) := by
  cases ch with
  | override rules => exact h
  | delete => exact h
  | patch es =>
    rcases ha with ⟨hb, ho⟩ | ⟨hb, hr⟩
    · rcases h.1 with hb' | ho'
      · exact absurd hb' hb
      · rw [ho] at ho'
        cases ho'
    · exact ⟨h.1, EntryStaged.addRule h.2 (.inr (.inl ⟨rfl, hb, hr⟩))⟩

theorem ChainStaged.insert {ch : Chain} (h : ChainStaged p A B t c ch) {n : Int}
    {r : Iptables.Rule} (ha : Allowed p A B (.insert t c n r)) :
    ChainStaged p A B t c (ch.insert n r) := by
  cases ch with
  | override rules =>
    simp only [Chain.insert]
    split <;> exact h
  | delete => exact h
  | patch es => exact ⟨h.1, EntryStaged.addRule h.2 (.inr (.inr ⟨rfl, ha⟩))⟩

theorem ChainStaged.remove {ch : Chain} (h : ChainStaged p A B t c ch) (r : Iptables.Rule) :
    ChainStaged p A B t c (ch.remove r) := by
  cases ch with
  | override rules => exact h
  | delete => exact h
  | patch es => exact ⟨h.1, EntryStaged.addRule h.2 (.inl rfl)⟩

theorem Staged.step (h : Staged p A B ipt) {call : Call} (ha : Allowed p A B call) :
    Staged p A B (call.step ipt) := by
  intro t c ch hf
  rw [Call.findChain_step] at hf
  have hmap : ∀ {op : Chain → Chain} {t' c' : Bytes},
      (if t = t' ∧ c = c' then (findChain ipt t c).map op else findChain ipt t c) = some ch →
      (t = t' ∧ c = c' → ∀ ch₀, ChainStaged p A B t c ch₀ → ChainStaged p A B t c (op ch₀)) →
      ChainStaged p A B t c ch := by
    intro op t' c' hf hop
    split at hf
    · next hk =>
      obtain ⟨ch₀, hf₀, rfl⟩ := Option.map_eq_some_iff.mp hf
      exact hop hk ch₀ (h t c ch₀ hf₀)
    · exact h t c ch hf
  have hreg : ∀ {new : Chain} {t' c' : Bytes},
      (if t = t' ∧ c = c' then some new else findChain ipt t c) = some ch →
      ChainStaged p A B t' c' new → ChainStaged p A B t c ch := by
    intro new t' c' hf hnew
    split at hf
    · next hk =>
      obtain ⟨rfl, rfl⟩ := hk
      cases hf
      exact hnew
    · exact h t c ch hf
  cases call with
  | registerOverride t' c' => exact hreg hf ha
  | registerPatch t' c' => exact hreg hf ⟨ha, by simp⟩
  | registerDelete t' c' => exact hreg hf ha
  | append t' c' r =>
    refine hmap hf fun hk ch₀ hch => hch.append ?_
    rw [hk.1, hk.2]
    exact ha
  | insert t' c' num r =>
    refine hmap hf fun hk ch₀ hch => hch.insert (n := num) ?_
    rw [hk.1, hk.2]
    exact ha
  | delete t' c' r => exact hmap hf fun _ ch₀ hch => hch.remove r

theorem Staged.run (h : Staged p A B ipt) {calls : List Call}
    (ha : ∀ call ∈ calls, Allowed p A B call) : Staged p A B (calls.foldl Call.step ipt) := by
  induction calls generalizing ipt with
  | nil => exact h
  | cons call calls ih =>
    exact ih (h.step (ha call (List.mem_cons_self ..))) fun x hx =>
      ha x (List.mem_cons_of_mem _ hx)

end Staged

/-! ## The calls of the daemon -/

section Calls

variable {p : Prefixes} {A A' : Id → Prop} {B B' : Prop} {ipt : Ipt}

theorem isToken_jump {c : Bytes} (h : IsToken c) : ∀ x ∈ jump c, IsToken x := by
  intro x hx
  simp only [jump, List.mem_cons, List.not_mem_nil, or_false] at hx
  rcases hx with rfl | rfl
  · decide
  · exact h

theorem isToken_link (p : Prefixes) (l : Link) (f : Family) {r : Iptables.Rule}
    (h : ∀ x ∈ r, x = ipsetName p l.id f ∨ x = l.iface.bytes ∨ x = Libc.digits l.mark.toNat ∨
      IsToken x) : ∀ x ∈ r, IsToken x := by
  intro x hx
  rcases h x hx with rfl | rfl | rfl | h
  · exact isToken_ipsetName p l.id f
  · exact l.iface.isToken
  · exact isToken_digits l.mark.toNat
  · exact h

theorem buildIptablesRules_ok {l : Link} (hl : A l.id) (f : Family) :
    ∀ call ∈ buildIptablesRules p l f, call.Clean ∧ Allowed p A B call := by
  have hchain := isToken_chainName p l.id
  have hjump := isToken_jump hchain
  have hown : ∀ t : Bytes, (t, chainName p l.id) ∉ Engine.baseChains ∧
      Engine.isOwn p.chain (chainName p l.id) = true :=
    fun t => ⟨fun h => baseChains_ne_chainName p h l.id rfl, isOwn_chainName p l.id⟩
  have hA : ∃ id, A id ∧ jump (chainName p l.id) = jump (chainName p id) := ⟨l.id, hl, rfl⟩
  have hA' : ∃ id, A id ∧ chainName p l.id = chainName p id := ⟨l.id, hl, rfl⟩
  intro call hcall
  rw [buildIptablesRules, List.mem_append, List.mem_append] at hcall
  rcases hcall with (hcall | hcall) | hcall
  · obtain rfl := List.mem_singleton.mp hcall
    exact ⟨⟨by decide, hchain⟩, .inl ⟨by decide, hA'⟩⟩
  · split at hcall
    · exact absurd hcall List.not_mem_nil
    · obtain rfl := List.mem_singleton.mp hcall
      refine ⟨⟨by decide, hchain, isToken_link p l f ?_⟩, .inl (hown _)⟩
      simp [IsToken, Lib.Words.IsWord, isBlank, str]
  · simp only [List.mem_cons, List.not_mem_nil, or_false] at hcall
    rcases hcall with rfl | rfl | rfl | rfl | rfl | rfl | rfl | rfl | rfl
    · exact ⟨⟨by decide, by decide, hjump⟩, .inr ⟨by decide, hA⟩⟩
    · exact ⟨⟨by decide, hchain⟩, .inl ⟨by decide, hA'⟩⟩
    · exact ⟨⟨by decide, hchain, by decide⟩, .inl (hown _)⟩
    · refine ⟨⟨by decide, hchain, isToken_link p l f ?_⟩, .inl (hown _)⟩
      simp [IsToken, Lib.Words.IsWord, isBlank, str]
    · refine ⟨⟨by decide, hchain, isToken_link p l f ?_⟩, .inl (hown _)⟩
      simp [IsToken, Lib.Words.IsWord, isBlank, str]
    · exact ⟨⟨by decide, by decide, hjump⟩, .inr ⟨by decide, hA⟩⟩
    · exact ⟨⟨by decide, hchain⟩, .inl ⟨by decide, hA'⟩⟩
    · refine ⟨⟨by decide, hchain, isToken_link p l f ?_⟩, .inl (hown _)⟩
      simp [IsToken, Lib.Words.IsWord, isBlank, str]
    · exact ⟨⟨by decide, by decide, hjump⟩, .inr ⟨by decide, hA⟩⟩

theorem isToken_remapRule {proto : Bytes} (hp : IsToken proto) (r : PortRemap) (a : RemapAddr) :
    ∀ x ∈ remapRule r proto a, IsToken x := by
  have htext := a.text.isToken
  have hfrom := isToken_digits r.fromPort.toNat
  have hto : IsToken (str ":" ++ Libc.digits r.toPort.toNat) := by
    refine isToken_of_plain (by simp [str]) fun x hx => ?_
    rcases List.mem_append.mp hx with hx | hx
    · exact (by decide +kernel : ∀ x ∈ str ":", isBlank x = false ∧ x ≠ 10) x hx
    · have hdigits := isToken_digits r.toPort.toNat
      exact ⟨hdigits.1.2 x hx, fun h => hdigits.2 (h ▸ hx)⟩
  intro x hx
  simp only [remapRule, List.mem_cons, List.not_mem_nil, or_false] at hx
  rcases hx with rfl | rfl | rfl | rfl | rfl | rfl | rfl | rfl | rfl | rfl
  · decide
  · exact hp
  · decide
  · exact htext
  · decide
  · exact hfrom
  · decide
  · decide
  · decide
  · exact hto

theorem buildRules_ok (r : PortRemap) (hB : B) (f : Family) :
    ∀ call ∈ buildRules p r f, call.Clean ∧ Allowed p A B call := by
  have hchain := isToken_remapChain p
  have hown : (str "nat", remapChain p) ∉ Engine.baseChains ∧
      Engine.isOwn p.chain (remapChain p) = true :=
    ⟨fun h => baseChains_ne_remapChain p h rfl, isOwn_remapChain p⟩
  intro call hcall
  rw [buildRules, List.mem_append, List.mem_append] at hcall
  rcases hcall with (hcall | hcall) | hcall
  · obtain rfl := List.mem_singleton.mp hcall
    exact ⟨⟨by decide, hchain⟩, .inr ⟨hB, rfl, rfl⟩⟩
  · obtain ⟨a, -, hcall⟩ := List.mem_flatMap.mp hcall
    simp only [List.mem_cons, List.not_mem_nil, or_false] at hcall
    rcases hcall with rfl | rfl
    · exact ⟨⟨by decide, hchain, isToken_remapRule (by decide) r a⟩, .inl hown⟩
    · exact ⟨⟨by decide, hchain, isToken_remapRule (by decide) r a⟩, .inl hown⟩
  · obtain rfl := List.mem_singleton.mp hcall
    exact ⟨⟨by decide, by decide, by decide, isToken_jump hchain⟩, rfl, hB, rfl⟩

theorem deleteIptablesRules_ok (l : Link) :
    ∀ call ∈ deleteIptablesRules p l, call.Clean ∧ Allowed p A B call := by
  have hchain := isToken_chainName p l.id
  have hjump := isToken_jump hchain
  have hown := isOwn_chainName p l.id
  intro call hcall
  simp only [deleteIptablesRules, List.mem_cons, List.not_mem_nil, or_false] at hcall
  rcases hcall with rfl | rfl | rfl | rfl | rfl | rfl
  · exact ⟨⟨by decide, hchain⟩, hown⟩
  · exact ⟨⟨by decide, by decide, hjump⟩, trivial⟩
  · exact ⟨⟨by decide, hchain⟩, hown⟩
  · exact ⟨⟨by decide, by decide, hjump⟩, trivial⟩
  · exact ⟨⟨by decide, hchain⟩, hown⟩
  · exact ⟨⟨by decide, by decide, hjump⟩, trivial⟩

theorem deleteRules_ok : ∀ call ∈ deleteRules p, call.Clean ∧ Allowed p A B call := by
  have hchain := isToken_remapChain p
  intro call hcall
  simp only [deleteRules, List.mem_cons, List.not_mem_nil, or_false] at hcall
  rcases hcall with rfl | rfl
  · exact ⟨⟨by decide, hchain⟩, isOwn_remapChain p⟩
  · exact ⟨⟨by decide, by decide, isToken_jump hchain⟩, trivial⟩

/-- An entry for a rule that was deleted last deletes it. -/
theorem option_of_remove {ch : Chain} {r : Iptables.Rule} {es : List PatchEntry}
    (h : ch.remove r = .patch es) {e : PatchEntry} (he : e ∈ es) (hr : e.rule = r) :
    e.option = .delete := by
  cases ch with
  | override rules => cases h
  | delete => cases h
  | patch es₀ =>
    cases h
    rcases mem_addRule he with ⟨-, hne⟩ | rfl
    · exact absurd hr hne
    · rfl

/-- What is left of the chain of a link after `delete_iptables_rules`. -/
theorem findChain_deleteIptablesRules (p : Prefixes) (l : Link) (ipt : Ipt) (t c : Bytes) :
    findChain ((deleteIptablesRules p l).foldl Call.step ipt) t c =
      if t ∈ linkTables ∧ c = chainName p l.id then some .delete
      else if (t, c) ∈ linkBases then
        (findChain ipt t c).map fun ch => ch.remove (jump (chainName p l.id))
      else findChain ipt t c := by
  have hne := fun {t c : Bytes} (h : (t, c) ∈ Engine.baseChains) => baseChains_ne_chainName p h l.id
  have h₁ : str "FORWARD" ≠ chainName p l.id := hne (t := str "filter") (by decide)
  have h₂ : str "PREROUTING" ≠ chainName p l.id := hne (t := str "mangle") (by decide)
  have h₃ : str "POSTROUTING" ≠ chainName p l.id := hne (t := str "nat") (by decide)
  rw [findChain_foldl_step]
  generalize findChain ipt t c = v
  simp only [deleteIptablesRules, List.foldl_cons, List.foldl_nil, Call.at, linkTables, linkBases,
    List.mem_cons, List.not_mem_nil, or_false, Prod.mk.injEq]
  by_cases hc : c = chainName p l.id
  · subst hc
    simp only [h₁.symm, h₂.symm, h₃.symm, and_false, and_true, if_false, or_self]
    by_cases ht₁ : t = str "filter"
    · subst ht₁
      rfl
    · by_cases ht₂ : t = str "mangle"
      · subst ht₂
        rfl
      · by_cases ht₃ : t = str "nat" <;> simp [ht₁, ht₂, ht₃]
  · simp only [hc, and_false, if_false]
    by_cases hb₁ : t = str "filter" ∧ c = str "FORWARD"
    · obtain ⟨rfl, rfl⟩ := hb₁
      rfl
    · by_cases hb₂ : t = str "mangle" ∧ c = str "PREROUTING"
      · obtain ⟨rfl, rfl⟩ := hb₂
        rfl
      · by_cases hb₃ : t = str "nat" ∧ c = str "POSTROUTING"
        · obtain ⟨rfl, rfl⟩ := hb₃
          rfl
        · simp [hb₁, hb₂, hb₃]

/-- After `delete_iptables_rules` the chain of a link counts as enabled no longer. -/
theorem Staged.deleteIptablesRules {l : Link} (h : Staged p A B ipt)
    (hA : ∀ id, A id → chainName p id ≠ chainName p l.id → A' id) :
    Staged p A' B ((deleteIptablesRules p l).foldl Call.step ipt) := by
  intro t c ch hf
  have hch := h.run (fun call hc => (deleteIptablesRules_ok (A := A) (B := B) l call hc).2) t c ch hf
  rw [findChain_deleteIptablesRules] at hf
  cases ch with
  | delete => exact hch
  | override rules =>
    rcases hch with ⟨ht, id, hid, rfl⟩ | hch
    · refine .inl ⟨ht, id, hA id hid fun hc => ?_, rfl⟩
      rw [if_pos ⟨ht, hc⟩] at hf
      cases hf
    · exact .inr hch
  | patch es =>
    refine ⟨hch.1, fun e he => ?_⟩
    rcases hch.2 e he with ho | ⟨ho, hb, id, hid, hr⟩ | hi
    · exact .inl ho
    · by_cases hc : chainName p id = chainName p l.id
      · -- the jump was deleted last
        rw [hc] at hr
        have hk : ¬ (t ∈ linkTables ∧ c = chainName p l.id) := fun hk => by
          rw [if_pos hk] at hf
          cases hf
        rw [if_neg hk, if_pos hb] at hf
        obtain ⟨ch₀, -, hpatch⟩ := Option.map_eq_some_iff.mp hf
        exact .inl (option_of_remove hpatch he hr)
      · exact .inr (.inl ⟨ho, hb, id, hA id hid hc, hr⟩)
    · exact .inr (.inr hi)

/-- After `delete_rules` of the port remap it counts as enabled no longer. -/
theorem Staged.deleteRules (h : Staged p A B ipt) :
    Staged p A False ((deleteRules p).foldl Call.step ipt) := by
  have hne : str "PREROUTING" ≠ remapChain p :=
    baseChains_ne_remapChain p (t := str "nat") (by decide)
  intro t c ch hf
  have hch := h.run (fun call hc => (deleteRules_ok (A := A) (B := B) call hc).2) t c ch hf
  rw [findChain_foldl_step] at hf
  simp only [Rebuild.deleteRules, List.foldl_cons, List.foldl_nil, Call.at] at hf
  cases ch with
  | delete => exact hch
  | override rules =>
    rcases hch with hch | ⟨-, rfl, rfl⟩
    · exact .inl hch
    · simp [hne.symm] at hf
  | patch es =>
    refine ⟨hch.1, fun e he => ?_⟩
    rcases hch.2 e he with ho | ha | ⟨ho, hb, -, hr⟩
    · exact .inl ho
    · exact .inr (.inl ha)
    · obtain ⟨rfl, rfl⟩ := Prod.mk.inj hb
      rw [if_pos ⟨rfl, rfl⟩] at hf
      obtain ⟨ch₀, -, hpatch⟩ := Option.map_eq_some_iff.mp hf
      exact .inl (option_of_remove hpatch he hr)

end Calls

/-! ## Engines -/

/-- An engine over the fake executable, with what the daemon can have staged in it. -/
structure EngineOk (p : Prefixes) (A : Id → Prop) (B : Prop) (e : Engine Tables) : Prop where
  ipt : e.ipt.WF
  kernel : e.kernel.WF
  staged : Staged p A B e.ipt

namespace EngineOk

variable {p : Prefixes} {A A' : Id → Prop} {B B' : Prop} {e : Engine Tables}

theorem mono (hA : ∀ id, A id → A' id) (hB : B → B') (h : EngineOk p A B e) :
    EngineOk p A' B' e :=
  ⟨h.ipt, h.kernel, h.staged.mono hA hB⟩

theorem commit (h : EngineOk p A B e) (raised : Bool × Bool) :
    EngineOk p A B (e.commit fake raised).1 := by
  unfold Engine.commit
  split
  · next k out hc =>
    obtain ⟨ts', out', hc', hwf, -⟩ := commit_fake h.ipt h.kernel
    rw [commit_raised h.kernel hc] at hc'
    cases hc'
    exact ⟨h.ipt, hwf, h.staged⟩
  · exact h

end EngineOk

theorem call_fst (ipt : Ipt) (c : Call) : (call ipt c).1 = c.step ipt := by
  unfold call Call.step
  cases c.run ipt <;> rfl

namespace EngineOk

variable {p : Prefixes} {A A' : Id → Prop} {B B' : Prop} {e : Engine Tables} {calls : List Call}

theorem stage (h : EngineOk p A B e) (hcalls : ∀ c ∈ calls, c.Clean ∧ Allowed p A B c) :
    EngineOk p A B (e.stage calls).1 := by
  have hinv : (untilErr call e.ipt calls).1.WF ∧ Staged p A B (untilErr call e.ipt calls).1 := by
    refine untilErr_inv (I := fun ipt => ipt.WF ∧ Staged p A B ipt) ?_ ⟨h.ipt, h.staged⟩
    intro ipt c hc hipt
    rw [call_fst]
    exact ⟨hipt.1.step (hcalls c hc).1, hipt.2.step (hcalls c hc).2⟩
  exact ⟨hinv.1, h.kernel, hinv.2⟩

theorem insertRules (h : EngineOk p A B e) (hcalls : ∀ c ∈ calls, c.Clean ∧ Allowed p A B c) :
    EngineOk p A B (e.insertRules fake calls).1 := by
  have hs := h.stage hcalls
  unfold Engine.insertRules
  split
  · next hr => rwa [hr] at hs
  · next hr =>
    rw [hr] at hs
    exact hs.commit _

theorem removed_fst (ipt : Ipt) (err : Option Err) (calls : List Call) :
    (calls.foldl (fun r c => ((call r.1 c).1, r.2 <|> (call r.1 c).2)) (ipt, err)).1 =
      calls.foldl Call.step ipt := by
  induction calls generalizing ipt err with
  | nil => rfl
  | cons c calls ih => rw [List.foldl_cons, ih, call_fst, List.foldl_cons]

/-- `delete_iptables_rules` and `delete_rules`, by what they leave staged. -/
theorem removeRules (h : EngineOk p A B e) (hcalls : ∀ c ∈ calls, c.Clean)
    (hs : Staged p A' B' (calls.foldl Call.step e.ipt)) :
    EngineOk p A' B' (e.removeRules fake calls).1 := by
  have hok : EngineOk p A' B' ⟨calls.foldl Call.step e.ipt, e.kernel⟩ :=
    ⟨h.ipt.run hcalls, h.kernel, hs⟩
  have hcommit := hok.commit (false, false)
  rw [← removed_fst e.ipt none] at hcommit
  exact hcommit

theorem registerBaseChains (h : EngineOk p A B e) : EngineOk p A B e.registerBaseChains := by
  have hb : e.registerBaseChains.ipt =
      (Engine.baseChains.map fun b => Call.registerPatch b.1 b.2).foldl Call.step e.ipt := rfl
  have hok : ∀ c ∈ Engine.baseChains.map fun b => Call.registerPatch b.1 b.2,
      c.Clean ∧ Allowed p A B c := by
    intro c hc
    obtain ⟨b, hmem, rfl⟩ := List.mem_map.mp hc
    refine ⟨?_, .inl hmem⟩
    exact (by decide : ∀ b ∈ Engine.baseChains, (Call.registerPatch b.1 b.2).Clean) b hmem
  refine ⟨?_, h.kernel, ?_⟩
  · rw [hb]
    exact h.ipt.run fun c hc => (hok c hc).1
  · rw [hb]
    exact h.staged.run fun c hc => (hok c hc).2

end EngineOk

/-! ## The cleaner -/

section Cleaner

variable {p : Prefixes} {A : Id → Prop} {B : Prop} {ipt : Ipt} {t c : Bytes}

theorem cleanRule_eq (t c : Bytes) (ipt : Ipt) (r : Iptables.Rule) :
    (findChain ipt t c ≠ none ∧ Engine.cleanRule t c ipt r = ((Call.delete t c r).step ipt, none)) ∨
      (findChain ipt t c = none ∧ Engine.cleanRule t c ipt r =
        ([Call.registerPatch t c, .delete t c r].foldl Call.step ipt, none)) := by
  have hcall : ∀ {ipt : Ipt} {ch : Chain}, findChain ipt t c = some ch →
      call ipt (.delete t c r) = ((Call.delete t c r).step ipt, none) := by
    intro ipt ch hf
    rw [call, Call.step, Call.run, iptDelete, dispatchRuleOp, hf]
    rfl
  cases hf : findChain ipt t c with
  | some ch =>
    refine .inl ⟨by simp, ?_⟩
    rw [Engine.cleanRule, hcall hf]
  | none =>
    refine .inr ⟨rfl, ?_⟩
    have hreg : findChain (registerChainPatch ipt t c) t c = some (.patch []) := by
      rw [registerChainPatch, findChain_registerChain, if_pos ⟨rfl, rfl⟩]
    have hfail : call ipt (.delete t c r) = (ipt, some .state) := by
      rw [call, Call.run, iptDelete, dispatchRuleOp, hf]
    rw [Engine.cleanRule, hfail]
    exact hcall hreg

theorem cleanRule_inv (h : ipt.WF ∧ Staged p A B ipt) (ht : IsToken t) (hc : IsToken c)
    (hown : Engine.isOwn p.chain c = false) {r : Iptables.Rule} (hr : ∀ x ∈ r, IsToken x) :
    (Engine.cleanRule t c ipt r).1.WF ∧ Staged p A B (Engine.cleanRule t c ipt r).1 := by
  rcases cleanRule_eq t c ipt r with ⟨-, heq⟩ | ⟨-, heq⟩
  · rw [heq]
    exact ⟨h.1.step ⟨ht, hc, hr⟩, h.2.step trivial⟩
  · have hreg := h.1.step (show (Call.registerPatch t c).Clean from ⟨ht, hc⟩)
    have hstaged := h.2.step (show Allowed p A B (.registerPatch t c) from .inr hown)
    rw [heq]
    exact ⟨hreg.step (show (Call.delete t c r).Clean from ⟨ht, hc, hr⟩),
      hstaged.step (show Allowed p A B (.delete t c r) from trivial)⟩

theorem cleanTables_inv (h : ipt.WF ∧ Staged p A B ipt) {snap : Tables} (hsnap : snap.WF) :
    (Engine.cleanTables p.chain ipt snap).1.WF ∧ Staged p A B (Engine.cleanTables p.chain ipt snap).1 := by
  refine untilErr_inv (I := fun ipt => ipt.WF ∧ Staged p A B ipt) ?_ h
  intro ipt tr htr hipt
  have htwf := hsnap.tables tr htr
  refine untilErr_inv (I := fun ipt => ipt.WF ∧ Staged p A B ipt) ?_ hipt
  intro ipt cr hcr hipt
  have hcwf := htwf.chains cr hcr
  unfold Engine.cleanChain
  split
  · next hown =>
    exact ⟨hipt.1.step (show (Call.registerDelete tr.name cr.name).Clean from
        ⟨htwf.name, hcwf.name⟩),
      hipt.2.step (show Allowed p A B (.registerDelete tr.name cr.name) from hown)⟩
  · next hown =>
    refine untilErr_inv (I := fun ipt => ipt.WF ∧ Staged p A B ipt) ?_ hipt
    intro ipt r hr hipt
    exact cleanRule_inv hipt htwf.name hcwf.name (by simpa using hown)
      (hcwf.rules r (List.mem_filter.mp hr).1)

theorem EngineOk.clean {e : Engine Tables} (h : EngineOk p A B e) (raised : Bool × Bool) :
    EngineOk p A B (e.clean fake p.chain raised).1 := by
  obtain ⟨snap, hsnap, hwf, -⟩ := getCurrentRules_fakeSave h.kernel
  have hsave : (fake.save e.kernel).bind getCurrentRules = .ok snap := hsnap
  have hinv := cleanTables_inv (p := p) (A := A) (B := B) ⟨h.ipt, h.staged⟩ hwf
  simp only [Engine.clean_eq, hsave]
  split
  · next hr =>
    rw [hr] at hinv
    exact ⟨hinv.1, h.kernel, hinv.2⟩
  · next hr =>
    rw [hr] at hinv
    have hok : EngineOk p A B ⟨_, e.kernel⟩ := ⟨hinv.1, h.kernel, hinv.2⟩
    exact hok.commit raised

end Cleaner

/-! ## The daemon -/

def State.Enabled {σ : Type} (s : State σ) (id : Id) : Prop :=
  ∃ k, ∃ l ∈ s.links k, l.enabled = true ∧ l.id = id

def State.Remapped {σ : Type} (s : State σ) : Prop := ∃ r, s.remap = some r ∧ r.enabled = true

/-- All engines are as they should be for the links `A` and the port remap `B`. -/
def EnginesOk (p : Prefixes) (A : Id → Prop) (B : Prop) (s : State Tables) : Prop :=
  ∀ f e, s.engines f = some e → EngineOk p A B e

/-- The invariant of the daemon. -/
def Inv (p : Prefixes) (s : State Tables) : Prop := EnginesOk p s.Enabled s.Remapped s

section State

variable {σ : Type} {s : State σ} {a : Family → Engine σ → Engine σ × Option Err}

@[simp] theorem on_links (f : Family) (a : Engine σ → Engine σ × Option Err) :
    (s.on f a).1.links = s.links := by
  unfold State.on
  split <;> rfl

@[simp] theorem on_remap (f : Family) (a : Engine σ → Engine σ × Option Err) :
    (s.on f a).1.remap = s.remap := by
  unfold State.on
  split <;> rfl

theorem on_engines (f : Family) (a : Engine σ → Engine σ × Option Err) (f' : Family) :
    (s.on f a).1.engines f' =
      if f' = f then (s.engines f).map fun e => (a e).1 else s.engines f' := by
  unfold State.on
  cases h : s.engines f with
  | none =>
    by_cases hf : f' = f
    · subst hf
      simp [h]
    · simp [hf]
  | some e =>
    by_cases hf : f' = f
    · subst hf
      simp
    · simp [hf]

@[simp] theorem both_links : (s.both a).1.links = s.links := by simp [State.both]

@[simp] theorem both_remap : (s.both a).1.remap = s.remap := by simp [State.both]

/-- `both` works on every engine. -/
theorem both_engines (f : Family) :
    (s.both a).1.engines f = (s.engines f).map fun e => (a f e).1 := by
  cases f <;> simp [State.both, on_engines]

@[simp] theorem inTurn_links : (s.inTurn a).1.links = s.links := by
  unfold State.inTurn
  split
  · next h => rw [← on_links (s := s) .v4 (a .v4), h]
  · next h => rw [on_links, ← on_links (s := s) .v4 (a .v4), h]

@[simp] theorem inTurn_remap : (s.inTurn a).1.remap = s.remap := by
  unfold State.inTurn
  split
  · next h => rw [← on_remap (s := s) .v4 (a .v4), h]
  · next h => rw [on_remap, ← on_remap (s := s) .v4 (a .v4), h]

@[simp] theorem teardown_links {exe : Executable σ} {p : Prefixes} {l : Link} :
    (s.teardown exe p l).1.links = s.links := both_links

@[simp] theorem teardown_remap {exe : Executable σ} {p : Prefixes} {l : Link} :
    (s.teardown exe p l).1.remap = s.remap := both_remap

/-- `inTurn` works on every engine or leaves it. -/
theorem inTurn_engines (f : Family) :
    (s.inTurn a).1.engines f = s.engines f ∨
      (s.inTurn a).1.engines f = (s.engines f).map fun e => (a f e).1 := by
  have h₄ := on_engines (s := s) .v4 (a .v4)
  unfold State.inTurn
  split
  · next s' e h =>
    rw [h] at h₄
    cases f with
    | v4 => exact .inr (by simpa using h₄ .v4)
    | v6 => exact .inl (by simpa using h₄ .v6)
  · next s' h =>
    rw [h] at h₄
    cases f with
    | v4 => exact .inr (by simpa [on_engines] using h₄ .v4)
    | v6 =>
      refine .inr ?_
      rw [on_engines, if_pos rfl, show s'.engines .v6 = s.engines .v6 from by simpa using h₄ .v6]

end State

namespace EnginesOk

variable {p : Prefixes} {A A' : Id → Prop} {B B' : Prop} {s : State Tables}
  {a : Family → Engine Tables → Engine Tables × Option Err}

theorem mono (hA : ∀ id, A id → A' id) (hB : B → B') (h : EnginesOk p A B s) :
    EnginesOk p A' B' s :=
  fun f e he => (h f e he).mono hA hB

theorem both (h : EnginesOk p A B s)
    (hact : ∀ f e, EngineOk p A B e → EngineOk p A' B' (a f e).1) :
    EnginesOk p A' B' (s.both a).1 := by
  intro f e he
  rw [both_engines] at he
  obtain ⟨e₀, he₀, rfl⟩ := Option.map_eq_some_iff.mp he
  exact hact f e₀ (h f e₀ he₀)

theorem inTurn (h : EnginesOk p A B s)
    (hact : ∀ f e, EngineOk p A B e → EngineOk p A B (a f e).1) :
    EnginesOk p A B (s.inTurn a).1 := by
  intro f e he
  rcases inTurn_engines (s := s) (a := a) f with hf | hf
  · exact h f e (hf ▸ he)
  · rw [hf] at he
    obtain ⟨e₀, he₀, rfl⟩ := Option.map_eq_some_iff.mp he
    exact hact f e₀ (h f e₀ he₀)

/-- `teardown` of a link. -/
theorem teardown {l : Link} (h : EnginesOk p A B s)
    (hA : ∀ id, A id → chainName p id ≠ chainName p l.id → A' id) :
    EnginesOk p A' B (s.teardown fake p l).1 :=
  h.both fun _ _ he => he.removeRules
    (fun c hc => (deleteIptablesRules_ok (A := A) (B := B) l c hc).1)
    (he.staged.deleteIptablesRules hA)

theorem deleteRules (h : EnginesOk p A B s) :
    EnginesOk p A False (s.both fun _ => Engine.removeRules fake (deleteRules p)).1 :=
  h.both fun _ _ he => he.removeRules (fun c hc => (deleteRules_ok (A := A) (B := B) c hc).1)
    he.staged.deleteRules

end EnginesOk

/-! ## Links -/

section Links

variable {σ : Type} {s : State σ} {k : Kind} {i : Nat} {l m : Link} {id : Id}

theorem State.Enabled.setLink (hl : (s.links k)[i]? = some l) (h : s.Enabled id) :
    (s.setLink k i m).Enabled id ∨ (l.enabled = true ∧ l.id = id) := by
  obtain ⟨k', x, hx, hon, hid⟩ := h
  by_cases hk : k' = k
  · subst hk
    obtain ⟨j, hj⟩ := List.mem_iff_getElem?.mp hx
    by_cases hij : i = j
    · subst hij
      rw [hl] at hj
      cases hj
      exact .inr ⟨hon, hid⟩
    · refine .inl ⟨k', x, ?_, hon, hid⟩
      simp only [State.setLink, Function.update_self]
      exact List.mem_iff_getElem?.mpr ⟨j, by rw [List.getElem?_set_ne hij, hj]⟩
  · refine .inl ⟨k', x, ?_, hon, hid⟩
    simpa only [State.setLink, Function.update_of_ne hk] using hx

theorem enabled_setLink_self (hl : (s.links k)[i]? = some l) (hon : m.enabled = true) :
    (s.setLink k i m).Enabled m.id := by
  refine ⟨k, m, ?_, hon, rfl⟩
  simp only [State.setLink, Function.update_self]
  have hi := (List.getElem?_eq_some_iff.mp hl).1
  exact List.mem_iff_getElem?.mpr ⟨i, List.getElem?_set_self hi⟩

end Links

/-! ## Histories -/

/-- The firmware leaves well-formed tables. -/
def Op.WF : Op Tables → Prop
  | .kernel _ k => k.WF
  | _ => True

instance : (op : Op Tables) → Decidable op.WF
  | .kernel _ k => inferInstanceAs (Decidable k.WF)
  | .registerBaseChains | .cleanIptables | .remapNew .. | .remapEnable | .remapDisable | .push ..
  | .enable .. | .disable .. | .setIface .. | .remove .. | .rebuild _ | .forceCommit =>
    inferInstanceAs (Decidable True)

namespace Inv

variable {p : Prefixes} {s s' : State Tables}

theorem of_engines (h : EnginesOk p s.Enabled s.Remapped s') (hlinks : s'.links = s.links)
    (hremap : s'.remap = s.remap) : Inv p s' := by
  refine h.mono (fun id hid => ?_) fun hr => ?_
  · unfold State.Enabled
    rw [hlinks]
    exact hid
  · unfold State.Remapped
    rw [hremap]
    exact hr

/-- What is staged for a rebuild belongs to something that is enabled. -/
theorem prepared_ok {calls : Family → List Call} (h : calls ∈ s.prepared p) (f : Family) :
    ∀ c ∈ calls f, c.Clean ∧ Allowed p s.Enabled s.Remapped c := by
  rcases List.mem_append.mp h with h | h
  · obtain ⟨r, hr, rfl⟩ := List.mem_map.mp h
    intro c hc
    simp only at hc
    split at hc
    · next hon => exact buildRules_ok r ⟨r, Option.mem_toList.mp hr, hon⟩ f c hc
    · exact absurd hc List.not_mem_nil
  · obtain ⟨l, hl, rfl⟩ := List.mem_map.mp h
    intro c hc
    simp only at hc
    split at hc
    · next hon =>
      refine buildIptablesRules_ok ?_ f c hc
      rcases List.mem_append.mp hl with hl | hl
      · exact ⟨.group, l, hl, hon, rfl⟩
      · exact ⟨.subscription, l, hl, hon, rfl⟩
    · exact absurd hc List.not_mem_nil

theorem registerBaseChains (h : Inv p s) : Inv p s.registerBaseChains :=
  of_engines (h.both fun _ _ he => he.registerBaseChains) both_links both_remap

theorem prepareIptables (h : Inv p s) : Inv p (s.prepareIptables p).1 := by
  have hinv : EnginesOk p s.Enabled s.Remapped (s.prepareIptables p).1 ∧
      (s.prepareIptables p).1.links = s.links ∧ (s.prepareIptables p).1.remap = s.remap := by
    refine untilErr_inv (I := fun s' : State Tables => EnginesOk p s.Enabled s.Remapped s' ∧
      s'.links = s.links ∧ s'.remap = s.remap) ?_ ⟨h, rfl, rfl⟩
    intro s' calls hcalls hs
    refine ⟨hs.1.both fun f e he => he.stage (prepared_ok hcalls f), ?_, ?_⟩
    · rw [both_links, hs.2.1]
    · rw [both_remap, hs.2.2]
  exact of_engines hinv.1 hinv.2.1 hinv.2.2

theorem rebuild (h : Inv p s) (looks : State.Looks) :
    Inv p (s.rebuildNetfilter fake p looks).1 := by
  have hclean : Inv p (s.both fun f => Engine.clean fake p.chain (looks.clean f)).1 :=
    of_engines (h.both fun f e he => he.clean _) both_links both_remap
  unfold State.rebuildNetfilter
  split
  · next hr => rwa [hr] at hclean
  · next s₁ hr =>
    rw [hr] at hclean
    split
    · exact hclean
    · have hprep := hclean.registerBaseChains.prepareIptables
      split
      · next hr => rwa [hr] at hprep
      · next s₃ hr =>
        rw [hr] at hprep
        split
        · exact hprep
        · exact of_engines (hprep.inTurn fun f e he => he.commit _) inTurn_links inTurn_remap

theorem setUp {A : Id → Prop} {B : Prop} (h : EnginesOk p A B s) (l : Link)
    (routeErr : Option Err) :
    EnginesOk p (fun id => A id ∨ id = l.id) B (s.setUp fake p l routeErr).1 ∧
      (s.setUp fake p l routeErr).1.links = s.links ∧
      (s.setUp fake p l routeErr).1.remap = s.remap := by
  have hup : EnginesOk p (fun id => A id ∨ id = l.id) B s := h.mono (fun id hid => .inl hid) id
  cases routeErr with
  | some e => exact ⟨hup, rfl, rfl⟩
  | none =>
    exact ⟨hup.inTurn fun f e he => he.insertRules (buildIptablesRules_ok (.inr rfl) f),
      inTurn_links, inTurn_remap⟩

theorem setLink {k : Kind} {i : Nat} {l m : Link} (hl : (s.links k)[i]? = some l)
    (hid : m.id = l.id) (hon : m.enabled = true)
    (h : EnginesOk p (fun id => s.Enabled id ∨ id = l.id) s.Remapped s) :
    Inv p (s.setLink k i m) := by
  have hself : (s.setLink k i m).Enabled l.id := hid ▸ enabled_setLink_self hl hon
  have henabled : EnginesOk p (fun id => s.Enabled id ∨ id = l.id) s.Remapped (s.setLink k i m) := h
  refine henabled.mono ?_ id
  rintro id (hid' | rfl)
  · rcases hid'.setLink (m := m) hl with hid' | ⟨-, rfl⟩
    · exact hid'
    · exact hself
  · exact hself

theorem enable (h : Inv p s) (k : Kind) (i : Nat) (mark : UInt32) (ipsetErr routeErr : Option Err) :
    Inv p (s.enable fake p k i mark ipsetErr routeErr).1 := by
  unfold State.enable
  split
  · exact h
  · next l hl =>
    split
    · exact h
    · have hdown : Inv p (s.teardown fake p l).1 :=
        of_engines (h.teardown fun id hid _ => hid) teardown_links teardown_remap
      have hlinks : (s.teardown fake p l).1.links = s.links := teardown_links
      split
      · next hr => rwa [hr] at hdown
      · next s₁ hr =>
        rw [hr] at hdown hlinks
        split
        · exact hdown
        · obtain ⟨hup, hl₂, hr₂⟩ := setUp hdown { l with mark := mark } routeErr
          split
          · next s₂ e hr =>
            rw [hr] at hup hl₂ hr₂
            simp only at hup hl₂ hr₂ ⊢
            refine of_engines (hup.teardown (l := l) ?_) (teardown_links.trans hl₂)
              (teardown_remap.trans hr₂)
            rintro id (hid | rfl) hne
            · exact hid
            · exact absurd rfl hne
          · next s₂ hr =>
            rw [hr] at hup hl₂ hr₂
            simp only at hup hl₂ hr₂ ⊢
            have hl' : (s₂.links k)[i]? = some l := by rw [hl₂, hlinks, hl]
            refine setLink (l := l) (m := { l with mark := mark, enabled := true }) hl' rfl rfl ?_
            refine hup.mono ?_ ?_
            · rintro id (hid | rfl)
              · refine .inl ?_
                unfold State.Enabled
                rw [hl₂]
                exact hid
              · exact .inr rfl
            · rintro ⟨r, hr, hon⟩
              exact ⟨r, hr₂.trans hr, hon⟩

theorem disable (h : Inv p s) (k : Kind) (i : Nat) : Inv p (s.disable fake p k i).1 := by
  unfold State.disable
  split
  · exact h
  · next l hl =>
    split
    · have hs : EnginesOk p s.Enabled s.Remapped (s.setLink k i { l with enabled := false }) := h
      refine of_engines (s := s.setLink k i { l with enabled := false }) (hs.teardown ?_)
        teardown_links teardown_remap
      intro id hid hne
      rcases hid.setLink (m := { l with enabled := false }) hl with hid | ⟨-, rfl⟩
      · exact hid
      · exact absurd rfl hne
    · exact h

theorem remapEnable (h : Inv p s) : Inv p (s.remapEnable fake p).1 := by
  unfold State.remapEnable
  split
  · exact h
  · next r hr =>
    split
    · exact h
    · have hup : EnginesOk p s.Enabled True s := h.mono (fun _ hid => hid) fun _ => trivial
      have hins := hup.inTurn (a := fun f => Engine.insertRules fake (buildRules p r f))
        fun f e he => he.insertRules (buildRules_ok r trivial f)
      have hlinks := inTurn_links (s := s) (a := fun f => Engine.insertRules fake (buildRules p r f))
      have hremap := inTurn_remap (s := s) (a := fun f => Engine.insertRules fake (buildRules p r f))
      split
      · next s₁ e hi =>
        rw [hi] at hins hlinks hremap
        simp only at hins hlinks hremap ⊢
        refine of_engines (s := s) (hins.deleteRules.mono (fun _ hid => hid) False.elim) ?_ ?_
        · rw [both_links, hlinks]
        · rw [both_remap, hremap]
      · next s₁ hi =>
        rw [hi] at hins hlinks
        simp only at hins hlinks ⊢
        have hs : EnginesOk p s.Enabled True { s₁ with remap := some { r with enabled := true } } :=
          hins
        refine hs.mono (fun id hid => ?_) fun _ => ⟨_, rfl, rfl⟩
        unfold State.Enabled
        rw [show State.links { s₁ with remap := some { r with enabled := true } } = s.links
          from hlinks]
        exact hid

theorem remapDisable (h : Inv p s) : Inv p (s.remapDisable fake p).1 := by
  unfold State.remapDisable
  split
  · exact h
  · next r hr =>
    split
    · have hs : EnginesOk p s.Enabled s.Remapped
          { s with remap := some { r with enabled := false } } := h
      refine of_engines (s := { s with remap := some { r with enabled := false } })
        (hs.deleteRules.mono (fun _ hid => hid) False.elim) both_links both_remap
    · exact h

/-- After `disable` the link in that place is not enabled. -/
theorem disabled (exe : Executable Tables) (k : Kind) (i : Nat) {l : Link}
    (hl : (((s.disable exe p k i).1.links k)[i]? = some l)) : l.enabled = false := by
  unfold State.disable at hl
  cases hi : (s.links k)[i]? with
  | none =>
    simp [hi] at hl
  | some l₀ =>
    simp only [hi] at hl
    split at hl
    · rw [teardown_links] at hl
      simp only [State.setLink, Function.update_self,
        List.getElem?_set_self (List.getElem?_eq_some_iff.mp hi).1] at hl
      cases hl
      rfl
    · next hoff =>
      rw [hi] at hl
      cases hl
      simpa using hoff

theorem remove (h : Inv p s) (k : Kind) (i : Nat) : Inv p (s.step fake p (.remove k i)) := by
  have hdis := h.disable k i
  have hoff := fun l => disabled (s := s) (p := p) fake k i (l := l)
  show Inv p { (s.disable fake p k i).1 with links := _ }
  generalize (s.disable fake p k i).1 = s₁ at hdis hoff
  have hs : EnginesOk p s₁.Enabled s₁.Remapped { s₁ with
      links := Function.update s₁.links k ((s₁.links k).eraseIdx i) } := hdis
  refine hs.mono ?_ id
  rintro id ⟨k', l, hl, hon, rfl⟩
  refine ⟨k', l, ?_, hon, rfl⟩
  by_cases hk : k' = k
  · subst hk
    simp only [Function.update_self]
    obtain ⟨j, hj⟩ := List.mem_iff_getElem?.mp hl
    rw [List.mem_eraseIdx_iff_getElem?]
    refine ⟨j, ?_, hj⟩
    rintro rfl
    rw [hoff l hj] at hon
    cases hon
  · simpa only [Function.update_of_ne hk] using hl

theorem step (h : Inv p s) {op : Op Tables} (hop : op.WF) : Inv p (s.step fake p op) := by
  cases op with
  | kernel f k =>
    refine of_engines (s := s) ?_ (on_links ..) (on_remap ..)
    intro f' e he
    rw [State.step, on_engines] at he
    split at he
    · obtain ⟨e₀, he₀, rfl⟩ := Option.map_eq_some_iff.mp he
      have hok := h f e₀ he₀
      exact ⟨hok.ipt, hop, hok.staged⟩
    · exact h f' e he
  | registerBaseChains => exact h.registerBaseChains
  | cleanIptables => exact of_engines (h.both fun f e he => he.clean _) both_links both_remap
  | remapNew addrs fromPort toPort =>
    simp only [State.step]
    split
    · next hr =>
      have hs : EnginesOk p s.Enabled s.Remapped
          { s with remap := some ⟨addrs, fromPort, toPort, false⟩ } := h
      refine hs.mono (fun _ hid => hid) ?_
      rintro ⟨r, hr', -⟩
      rw [hr] at hr'
      cases hr'
    · exact h
  | remapEnable => exact h.remapEnable
  | remapDisable => exact h.remapDisable
  | push k id iface =>
    have hs : EnginesOk p s.Enabled s.Remapped (s.step fake p (.push k id iface)) := h
    refine hs.mono ?_ fun hr => hr
    rintro id' ⟨k', l, hl, hon, rfl⟩
    refine ⟨k', l, ?_, hon, rfl⟩
    by_cases hk : k' = k
    · subst hk
      simp only [State.step, Function.update_self]
      exact List.mem_append_left _ hl
    · simpa only [State.step, Function.update_of_ne hk] using hl
  | enable k i mark ipsetErr routeErr => exact h.enable k i mark ipsetErr routeErr
  | disable k i => exact h.disable k i
  | setIface k i iface =>
    simp only [State.step]
    split
    · exact h
    · next l hl =>
      split
      · exact h
      · next hoff =>
        have hs : EnginesOk p s.Enabled s.Remapped (s.setLink k i { l with iface := iface }) := h
        refine hs.mono ?_ fun hr => hr
        intro id hid
        rcases hid.setLink (m := { l with iface := iface }) hl with hid | ⟨hon, -⟩
        · exact hid
        · exact absurd hon hoff
  | remove k i => exact h.remove k i
  | rebuild looks => exact h.rebuild looks
  | forceCommit => exact of_engines (h.inTurn fun f e he => he.commit _) inTurn_links inTurn_remap

end Inv

/-- The invariant holds after every history. -/
theorem inv_after (p : Prefixes) {kernels : Family → Option Tables}
    (hk : ∀ f k, kernels f = some k → k.WF) {ops : List (Op Tables)} (hops : ∀ op ∈ ops, op.WF) :
    Inv p (State.after fake p kernels ops) := by
  have hstart : Inv p (State.start kernels) := by
    intro f e he
    obtain ⟨k, hk', rfl⟩ := Option.map_eq_some_iff.mp he
    exact ⟨Ipt.WF.iptNew, hk f k hk', staged_iptNew⟩
  unfold State.after
  generalize State.start kernels = s at hstart
  induction ops generalizing s with
  | nil => exact hstart
  | cons op ops ih =>
    exact ih (fun x hx => hops x (List.mem_cons_of_mem _ hx)) _
      (hstart.step (hops op (List.mem_cons_self ..)))

end MagiTrickle.Rebuild
