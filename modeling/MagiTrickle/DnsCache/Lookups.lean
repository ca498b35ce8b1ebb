import MagiTrickle.DnsCache.Views

/-!
# What the two lookups return

`mt_cache_get_aliases` walks the alias edges backwards, breadth first: its list
starts with the name and has every name that leads to it, once.
`mt_cache_get_addresses` walks the unexpired edges forwards. The names it can
meet are those of the walk that stops before a name it has met (`Walk`), and it
looks at the first 64 of them.
-/

namespace MagiTrickle.DnsCache

namespace Table

variable {c : Table}

/-! ## Backwards -/

theorem aliasesLoop_stops (h : c.Inv) {domain : Bytes} {fuel : Nat} {result : List Bytes}
    {head : Nat} (hc : Collects c domain result head) (hfuel : c.nDomains + 1 ≤ fuel + head) :
    ∃ head', Collects c domain (aliasesLoop c fuel result head) head' ∧
      (aliasesLoop c fuel result head).length ≤ head' ∧
      result <+: aliasesLoop c fuel result head := by
  induction fuel generalizing result head with
  | zero =>
    have hlen := hc.length_le h
    exact ⟨head, hc, by rw [aliasesLoop]; omega, List.prefix_rfl⟩
  | succ fuel ih =>
    rw [aliasesLoop]
    cases hcur : result[head]? with
    | none => exact ⟨head, hc, List.getElem?_eq_none_iff.mp hcur, List.prefix_rfl⟩
    | some cur =>
      obtain ⟨head', hc', hlen, hpre⟩ := ih (hc.step h hcur) (by omega)
      exact ⟨head', hc', hlen, (prefix_foldl_pushNew (c.pointing cur) result).trans hpre⟩

theorem aliasesLoop_fuel (h : c.Inv) {domain : Bytes} {fuel fuel' : Nat} {result : List Bytes}
    {head : Nat} (hc : Collects c domain result head) (hfuel : c.nDomains + 1 ≤ fuel + head)
    (hle : fuel ≤ fuel') : aliasesLoop c fuel' result head = aliasesLoop c fuel result head := by
  induction fuel generalizing fuel' result head with
  | zero =>
    have hlen := hc.length_le h
    have hnone : result[head]? = none := List.getElem?_eq_none_iff.mpr (by omega)
    cases fuel' with
    | zero => rfl
    | succ fuel' => simp only [aliasesLoop, hnone]
  | succ fuel ih =>
    obtain ⟨fuel', rfl⟩ : ∃ k, fuel' = k + 1 := ⟨fuel' - 1, by omega⟩
    rw [aliasesLoop, aliasesLoop]
    cases hcur : result[head]? with
    | none => rfl
    | some cur => exact ih (hc.step h hcur) (by omega) (by omega)

theorem collects_start (c : Table) (domain : Bytes) : Collects c domain [domain] 0 := by
  refine ⟨List.nodup_singleton _, List.mem_singleton_self _, fun y hy => ?_,
    fun i hi => absurd hi (Nat.not_lt_zero i)⟩
  rw [List.mem_singleton.mp hy]

/-- **The reverse lookup** ends, and returns the name followed by exactly the other names that lead
to it, each once. -/
theorem run_getAliases_exact (maxDomains : Nat) (ops : List Op) (domain : Bytes) :
    let c := (create maxDomains).run ops
    (∀ fuel, c.nDomains + 1 ≤ fuel → aliasesLoop c fuel [domain] 0 = c.getAliases domain) ∧
      ∃ others, c.getAliases domain = domain :: others ∧ others.Nodup ∧
        ∀ x, x ∈ others ↔ x ≠ domain ∧ Relation.ReflTransGen c.Edge x domain := by
  intro c
  have h : c.Inv := (inv_create maxDomains).run ops
  refine ⟨fun fuel hfuel => aliasesLoop_fuel h (collects_start c domain) (Nat.le_refl _) hfuel, ?_⟩
  obtain ⟨head, hc, -, others, hothers⟩ :=
    aliasesLoop_stops h (collects_start c domain) (Nat.le_refl (c.nDomains + 1))
  have hlist : c.getAliases domain = domain :: others := hothers.symm
  have hnodup : (domain :: others).Nodup := by
    rw [← hlist]
    exact hc.nodup
  obtain ⟨hhead, hothers⟩ := List.nodup_cons.mp hnodup
  refine ⟨others, hlist, hothers, fun x => ?_⟩
  rw [← h.mem_getAliases, hlist, List.mem_cons]
  refine ⟨fun hx => ⟨fun heq => hhead (heq ▸ hx), .inr hx⟩, ?_⟩
  rintro ⟨hne, heq | hx⟩
  · exact absurd heq hne
  · exact hx

/-- On a cycle every name leads to every other one. -/
example : ((create 0).run [.addAlias (str "a") (str "b") 9 0, .addAlias (str "b") (str "a") 9 0,
    .addAlias (str "c") (str "a") 9 0]).getAliases (str "b") = [str "b", str "a", str "c"] := by
  decide +kernel

end Table

/-! ## Forwards -/

section Walk

variable {α : Type} {E : α → α → Prop}

/-- The names of a walk along `E` that stops before a name it has seen. -/
inductive Walk (E : α → α → Prop) : List α → α → List α → Prop
  | stop {seen : List α} {d : α} (h : ∀ t, E d t → t ∈ seen) : Walk E seen d [d]
  | next {seen : List α} {d t : α} {path : List α} (edge : E d t) (fresh : t ∉ seen)
      (rest : Walk E (t :: seen) t path) : Walk E seen d (d :: path)

theorem Walk.unique (hfun : ∀ d t t', E d t → E d t' → t = t') {seen : List α} {d : α}
    {path path' : List α} (h : Walk E seen d path) (h' : Walk E seen d path') : path = path' := by
  induction h generalizing path' with
  | stop hstop =>
    cases h' with
    | stop => rfl
    | next edge fresh => exact absurd (hstop _ edge) fresh
  | next edge fresh rest ih =>
    cases h' with
    | stop hstop => exact absurd (hstop _ edge) fresh
    | next edge' fresh' rest' =>
      cases hfun _ _ _ edge edge'
      rw [ih rest']

theorem Walk.exists [DecidableEq α] {nodes : List α} (hnodes : ∀ d t, E d t → d ∈ nodes)
    (seen : List α) (d : α) : ∃ path, Walk E seen d path := by
  -- every step to a name with a successor leaves one name less to be seen
  generalize hk : (nodes.filter (· ∉ seen)).length = k
  induction k using Nat.strong_induction_on generalizing seen d with
  | _ k ih =>
    by_cases hstop : ∀ t, E d t → t ∈ seen
    · exact ⟨[d], .stop hstop⟩
    · simp only [not_forall] at hstop
      obtain ⟨t, edge, fresh⟩ := hstop
      by_cases ht : t ∈ nodes
      · have hsub : (nodes.filter (· ∉ t :: seen)).Sublist (nodes.filter (· ∉ seen)) := by
          refine List.monotone_filter_right nodes fun x hx => ?_
          simp only [List.mem_cons, not_or, decide_eq_true_eq] at hx ⊢
          exact hx.2
        have hlt : (nodes.filter (· ∉ t :: seen)).length < k := by
          rw [← hk]
          refine lt_of_le_of_ne hsub.length_le fun hlen => ?_
          have hmem : t ∈ nodes.filter (· ∉ seen) := List.mem_filter.mpr ⟨ht, decide_eq_true fresh⟩
          rw [← hsub.eq_of_length hlen] at hmem
          exact of_decide_eq_true (List.mem_filter.mp hmem).2 List.mem_cons_self
        obtain ⟨path, hpath⟩ := ih _ hlt (t :: seen) t rfl
        exact ⟨d :: path, .next edge fresh hpath⟩
      · exact ⟨[d, t], .next edge fresh (.stop fun t' edge' => absurd (hnodes t t' edge') ht)⟩

end Walk

theorem liveEdge_unique {c : Cache} {now : Int} {d t t' : Bytes} (h : LiveEdge c now d t)
    (h' : LiveEdge c now d t') : t = t' := by
  obtain ⟨n, dl, hn, hal, -⟩ := h
  obtain ⟨n', dl', hn', hal', -⟩ := h'
  cases hn.symm.trans hn'
  cases hal.symm.trans hal'
  rfl

theorem mem_domains_of_liveEdge {c : Cache} {now : Int} {d t : Bytes} (h : LiveEdge c now d t) :
    d ∈ c.domains.map DomainNode.domain := by
  obtain ⟨n, dl, hn, -⟩ := h
  have hd : n.domain = d := by simpa using List.find?_some hn
  rw [← hd]
  exact List.mem_map_of_mem (List.mem_of_find?_eq_some hn)

/-- The unexpired addresses of the first of the names that has any. -/
def firstLive (valid : Bytes → List CacheAddr) (names : List Bytes) : List CacheAddr :=
  ((names.map valid).find? (· ≠ [])).getD []

theorem firstLive_cons_of_ne {valid : Bytes → List CacheAddr} {d : Bytes} (names : List Bytes)
    (h : valid d ≠ []) : firstLive valid (d :: names) = valid d := by
  unfold firstLive
  rw [List.map_cons, List.find?_cons_of_pos (by simpa using h)]
  rfl

theorem firstLive_cons_of_nil {valid : Bytes → List CacheAddr} {d : Bytes} (names : List Bytes)
    (h : valid d = []) : firstLive valid (d :: names) = firstLive valid names := by
  unfold firstLive
  rw [List.map_cons, List.find?_cons_of_neg (by simpa using h)]

/-- The loop looks at the names of the walk, as many as there is room for and one more. -/
theorem getAddressesFrom_walk {c : Cache} {now : Int} {seen : List Bytes} {d : Bytes}
    {path : List Bytes} (h : Walk (LiveEdge c now) seen d path) (room : Nat) :
    getAddressesFrom c now room seen d =
      firstLive (liveAddrs c now) (path.take (room + 1)) := by
  induction h generalizing room with
  | @stop seen d hstop =>
    rw [List.take_succ_cons, List.take_nil]
    rcases getAddressesFrom_eq c now room seen d with
      ⟨hne, he⟩ | ⟨hnil, ⟨t, edge, hfresh, -⟩ | ⟨-, he⟩⟩
    · rw [he, firstLive_cons_of_ne _ hne]
    · exact absurd (hstop t edge) hfresh
    · rw [he, firstLive_cons_of_nil _ hnil]
      rfl
  | @next seen d t path edge fresh rest ih =>
    rw [List.take_succ_cons]
    rcases getAddressesFrom_eq c now room seen d with
      ⟨hne, he⟩ | ⟨hnil, ⟨t', edge', -, room', rfl, he⟩ | ⟨hstuck, he⟩⟩
    · rw [he, firstLive_cons_of_ne _ hne]
    · cases liveEdge_unique edge edge'
      rw [he, ih, firstLive_cons_of_nil _ hnil]
    · have hroom : room = 0 := (hstuck t edge).resolve_right fresh
      rw [he, firstLive_cons_of_nil _ hnil, hroom]
      rfl

namespace Table

/-- The addresses of a name with a deadline after `now`, in stored order. -/
def validAddrs (c : Table) (now : Int) (d : Bytes) : List CacheAddr :=
  (c.addrsOf d).filter fun a => a.deadline > now

/-- The alias of `d` is `t`, with a deadline after `now`. -/
def ValidEdge (c : Table) (now : Int) (d t : Bytes) : Prop :=
  ∃ deadline, c.aliasTo d = some (t, deadline) ∧ now < deadline

/-- The forward lookup returns the unexpired addresses of the first name that has any, among the
first 64 of the walk along the unexpired aliases. -/
theorem Inv.getAddresses_exact {c : Table} (h : c.Inv) (domain : Bytes) (now : Int) :
    ∃ path, Walk (c.ValidEdge now) [domain] domain path ∧
      (∀ path', Walk (c.ValidEdge now) [domain] domain path' → path' = path) ∧
      cacheGetAddresses c.cache domain now = firstLive (c.validAddrs now) (path.take 64) := by
  have hedge : c.ValidEdge now = LiveEdge c.cache now := by
    funext d t
    exact propext h.liveEdge_cache.symm
  have hvalid : c.validAddrs now = liveAddrs c.cache now := by
    funext d
    exact (h.liveAddrs_cache now d).symm
  rw [hedge, hvalid]
  obtain ⟨path, hpath⟩ := Walk.exists
    (fun d t (hdt : LiveEdge c.cache now d t) => mem_domains_of_liveEdge hdt) [domain] domain
  refine ⟨path, hpath, fun path' hpath' => ?_, getAddressesFrom_walk hpath (maxSeen - 1)⟩
  have hfun : ∀ d t t', LiveEdge c.cache now d t → LiveEdge c.cache now d t' → t = t' :=
    fun d t t' ht ht' => liveEdge_unique ht ht'
  exact Walk.unique hfun hpath' hpath

theorem run_getAddresses_exact (maxDomains : Nat) (ops : List Op) (domain : Bytes) (now : Int) :
    ∃ path, Walk (((create maxDomains).run ops).ValidEdge now) [domain] domain path ∧
      (∀ path', Walk (((create maxDomains).run ops).ValidEdge now) [domain] domain path' →
        path' = path) ∧
      cacheGetAddresses ((create maxDomains).run ops).cache domain now =
        firstLive (((create maxDomains).run ops).validAddrs now) (path.take 64) :=
  ((inv_create maxDomains).run ops).getAddresses_exact domain now

end Table

end MagiTrickle.DnsCache
