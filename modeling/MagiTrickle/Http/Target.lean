import MagiTrickle.Http.CleanPath

/-!
# Request targets

A path and a query as a client means them, and how it writes them in the request
line: a byte as itself, as `%` with two hexadecimal digits or, for a space in the
query, as `+`. What `parse_headers` takes out of a target within the limits of
the server is what was meant, the path cleaned as Go does it.
-/

namespace MagiTrickle.Http

def inLine (c : UInt8) : Prop := c ≠ nl ∧ c ≠ cr

instance (c : UInt8) : Decidable (inLine c) := inferInstanceAs (Decidable (c ≠ nl ∧ c ≠ cr))

/-- The text can be written so; in a query `+` stands for a space. -/
inductive Escapes (query : Bool) : Bytes → Bytes → Prop where
  | nil : Escapes query [] []
  | plain {c : UInt8} {text written : Bytes} (hc : c ≠ 37) (hplus : query = true → c ≠ 43)
      (h : Escapes query text written) : Escapes query (c :: text) (c :: written)
  | plus {text written : Bytes} (hquery : query = true) (h : Escapes query text written) :
      Escapes query (space :: text) (43 :: written)
  | escaped {a b : UInt8} {x y : Nat} {text written : Bytes} (hx : Libc.hexVal a = some x)
      (hy : Libc.hexVal b = some y) (h : Escapes query text written) :
      Escapes query (UInt8.ofNat (16 * x + y) :: text) (37 :: a :: b :: written)

/-- A text and how it is written. -/
structure Escaped where
  text : Bytes
  written : Bytes

/-- A pair of a query, or a name alone. -/
structure Param where
  name : Escaped
  value : Option Escaped

namespace Param

def written (p : Param) : Bytes :=
  match p.value with
  | some v => p.name.written ++ 61 :: v.written
  | none => p.name.written

def kv (p : Param) : Kv :=
  ⟨p.name.text, match p.value with
    | some v => v.text
    | none => []⟩

end Param

structure Target where
  path : Escaped
  query : Option (List Param)

namespace Target

def written (t : Target) : Bytes :=
  match t.query with
  | some ps => t.path.written ++ 63 :: Lib.Words.unwords 38 (ps.map Param.written)
  | none => t.path.written

def params (t : Target) : List Kv := (t.query.getD []).map Param.kv

end Target

/-- A text that is written without the marks `marks` and fits a buffer of `cap` bytes. -/
structure Escaped.WellFormed (e : Escaped) (query : Bool) (marks : List UInt8) (cap : Nat) : Prop where
  escapes : Escapes query e.text e.written
  line : ∀ c ∈ e.written, inLine c ∧ c ≠ space ∧ c ∉ marks
  noNul : ∀ c ∈ e.text, c ≠ 0
  short : e.text.length < cap

structure Param.WellFormed (p : Param) : Prop where
  name : p.name.WellFormed true [38, 61] 64
  value : ∀ v ∈ p.value, v.WellFormed true [38] 512
  nonempty : p.written ≠ []

/-- A target within the limits of the server: a rooted path of at most 511 bytes that does not get
deeper than 64 segments, and at most 16 pairs. -/
structure Target.WellFormed (t : Target) : Prop where
  path : t.path.WellFormed false [63] 512
  rooted : t.path.text.head? = some slash
  shallow : Shallow (segments t.path.text)
  query : ∀ ps ∈ t.query, ∀ p ∈ ps, p.WellFormed
  fewParams : t.params.length ≤ maxQuery

/-! ## Decoding -/

theorem percentLoop_plain {query : Bool} {c : UInt8} (hc : c ≠ 37) (room : Nat) (rest : Bytes) :
    percentLoop query (room + 1) (c :: rest) =
      (if query ∧ c = 43 then space else c) :: percentLoop query room rest := by
  rw [percentLoop]
  exact fun _ _ _ h => absurd h hc

theorem percentLoop_escaped {query : Bool} {a b : UInt8} {x y : Nat} (hx : Libc.hexVal a = some x)
    (hy : Libc.hexVal b = some y) (room : Nat) (rest : Bytes) :
    percentLoop query (room + 1) (37 :: a :: b :: rest) =
      UInt8.ofNat (16 * x + y) :: percentLoop query room rest := by
  rw [percentLoop]
  simp only [hx, hy]

theorem percentLoop_escapes {query : Bool} {text written : Bytes} (h : Escapes query text written)
    {room : Nat} (hroom : text.length ≤ room) : percentLoop query room written = text := by
  induction h generalizing room with
  | nil => cases room <;> rfl
  | plain hc hplus _ ih =>
    cases room with
    | zero => exact absurd hroom (Nat.not_succ_le_zero _)
    | succ room =>
      rw [percentLoop_plain hc, if_neg fun hand => hplus hand.1 hand.2,
        ih (Nat.le_of_succ_le_succ hroom)]
  | plus hquery _ ih =>
    cases room with
    | zero => exact absurd hroom (Nat.not_succ_le_zero _)
    | succ room =>
      rw [percentLoop_plain (by decide), if_pos ⟨hquery, rfl⟩, ih (Nat.le_of_succ_le_succ hroom)]
  | escaped hx hy _ ih =>
    cases room with
    | zero => exact absurd hroom (Nat.not_succ_le_zero _)
    | succ room => rw [percentLoop_escaped hx hy, ih (Nat.le_of_succ_le_succ hroom)]

theorem cstr_eq_self {b : Bytes} (h : ∀ c ∈ b, c ≠ 0) : cstr b = b :=
  List.takeWhile_eq_self_iff.mpr fun c hc => decide_eq_true (h c hc)

theorem Escaped.WellFormed.decode {e : Escaped} {query : Bool} {marks : List UInt8} {cap : Nat}
    (h : e.WellFormed query marks cap) : cstr (percentDecode e.written cap query) = e.text := by
  have hroom : e.text.length ≤ cap - 1 := Nat.le_sub_one_of_lt h.short
  rw [percentDecode, percentLoop_escapes h.escapes hroom, cstr_eq_self h.noNul]

theorem Escaped.WellFormed.notMem {e : Escaped} {query : Bool} {marks : List UInt8} {cap : Nat}
    (h : e.WellFormed query marks cap) {c : UInt8} (hc : c ∈ marks) : c ∉ e.written :=
  fun hmem => (h.line c hmem).2.2 hc

/-! ## Taking a target apart -/

theorem cut_append {c : UInt8} {a : Bytes} (h : c ∉ a) (b : Bytes) :
    cut c (a ++ c :: b) = some (a, b) := by
  have hpass : ∀ x ∈ a, decide (x ≠ c) = true := by
    intro x hx
    rw [decide_eq_true_eq]
    rintro rfl
    exact h hx
  unfold cut
  rw [if_pos (by simp), List.takeWhile_append_of_pos hpass, List.dropWhile_append_of_pos hpass,
    List.takeWhile_cons_of_neg (by simp), List.dropWhile_cons_of_neg (by simp), List.append_nil]
  rfl

theorem cut_eq_none {c : UInt8} {a : Bytes} (h : c ∉ a) : cut c a = none := if_neg h

theorem Param.WellFormed.queryPair {p : Param} (h : p.WellFormed) : queryPair p.written = p.kv := by
  have hname : (61 : UInt8) ∉ p.name.written := h.name.notMem (by decide)
  unfold Http.queryPair Param.written Param.kv
  cases hv : p.value with
  | none =>
    dsimp only
    rw [cut_eq_none hname]
    dsimp only
    rw [h.name.decode]
  | some v =>
    dsimp only
    rw [cut_append hname]
    dsimp only
    rw [h.name.decode, (h.value v hv).decode]

theorem Param.WellFormed.notMem {p : Param} (h : p.WellFormed) : (38 : UInt8) ∉ p.written := by
  have hname : (38 : UInt8) ∉ p.name.written := h.name.notMem (by decide)
  unfold Param.written
  cases hv : p.value with
  | none => exact hname
  | some v =>
    intro hmem
    rcases List.mem_append.mp hmem with hmem | hmem
    · exact hname hmem
    rcases List.mem_cons.mp hmem with hmem | hmem
    · cases hmem
    · exact (h.value v hv).notMem (by decide) hmem

theorem Param.WellFormed.line {p : Param} (h : p.WellFormed) :
    ∀ c ∈ p.written, inLine c ∧ c ≠ space := by
  have hname : ∀ c ∈ p.name.written, inLine c ∧ c ≠ space :=
    fun c hc => ⟨(h.name.line c hc).1, (h.name.line c hc).2.1⟩
  unfold Param.written
  cases hv : p.value with
  | none => exact hname
  | some v =>
    intro c hc
    rcases List.mem_append.mp hc with hc | hc
    · exact hname c hc
    rcases List.mem_cons.mp hc with rfl | hc
    · exact ⟨by decide, by decide⟩
    · exact ⟨((h.value v hv).line c hc).1, ((h.value v hv).line c hc).2.1⟩

theorem queryPairs_written {ps : List Param} (h : ∀ p ∈ ps, p.WellFormed)
    (hfew : ps.length ≤ maxQuery) :
    queryPairs (Lib.Words.unwords 38 (ps.map Param.written)) = ps.map Param.kv := by
  have hkv : (ps.map Param.written).map Http.queryPair = ps.map Param.kv := by
    rw [List.map_map]
    exact List.map_congr_left fun p hp => (h p hp).queryPair
  unfold queryPairs
  cases ps with
  | nil => rfl
  | cons p ps =>
    have hsplit : (Lib.Words.unwords 38 ((p :: ps).map Param.written)).splitOn 38 =
        (p :: ps).map Param.written := by
      refine List.splitOn_intercalate 38 (fun l hl => ?_) (by simp)
      obtain ⟨q, hq, rfl⟩ := List.mem_map.mp hl
      exact (h q hq).notMem
    have hlast : ((p :: ps).map Param.written).getLast? ≠ some [] := by
      intro hlast
      obtain ⟨q, hq, hnil⟩ := List.mem_map.mp (List.mem_of_getLast? hlast)
      exact (h q hq).nonempty hnil
    dsimp only
    rw [hsplit, if_neg hlast, hkv]
    exact List.take_of_length_le (by rwa [List.length_map])

theorem sum_cleanSegments_le (segs : List Bytes) :
    ((cleanSegments segs).map fun s => s.length + 1).sum ≤ (segs.map fun s => s.length + 1).sum := by
  unfold cleanSegments
  induction segs using List.reverseRecOn with
  | nil => exact Nat.le_refl _
  | append_singleton segs seg ih =>
    rw [List.foldl_append, List.foldl_cons, List.foldl_nil, List.map_append, List.sum_append]
    unfold cleanSegment
    split_ifs
    · exact Nat.le_add_right_of_le ih
    · refine Nat.le_add_right_of_le (Nat.le_trans ?_ ih)
      exact ((List.dropLast_sublist _).map _).sum_le_sum fun _ _ => Nat.zero_le _
    · rw [List.map_append, List.sum_append]
      exact Nat.add_le_add_right ih _

theorem length_goClean_le {text : Bytes} (h : text.head? = some slash) :
    (goClean text).length ≤ text.length := by
  obtain ⟨rest, rfl⟩ := List.head?_eq_some_iff.mp h
  have hfields : ((segments rest).map fun s => s.length + 1).sum ≤ rest.length + 1 :=
    Lib.Words.sum_fields_le (· = slash) rest
  have hclean := sum_cleanSegments_le (segments rest)
  have hrooted : ∀ segs : List Bytes,
      (rooted segs).length ≤ max 1 (segs.map fun s => s.length + 1).sum := by
    intro segs
    cases segs with
    | nil => exact Nat.le_refl 1
    | cons seg segs =>
      rw [rooted, List.length_flatMap]
      exact Nat.le_max_right ..
  rw [goClean, segments_slash, List.length_cons]
  have := hrooted (cleanSegments (segments rest))
  omega

namespace Target

variable {t : Target}

theorem WellFormed.clean (h : t.WellFormed) :
    pathClean (cstr (percentDecode t.path.written 512 false)) 512 = goClean t.path.text := by
  rw [h.path.decode]
  exact pathClean_of_shallow h.shallow
    (Nat.lt_of_le_of_lt (length_goClean_le h.rooted) h.path.short)

theorem WellFormed.targetPath (h : t.WellFormed) :
    targetPath t.written = goClean t.path.text := by
  have hmark : (63 : UInt8) ∉ t.path.written := h.path.notMem (by decide)
  unfold Http.targetPath written
  cases t.query with
  | none =>
    dsimp only
    rw [cut_eq_none hmark]
    exact h.clean
  | some ps =>
    dsimp only
    rw [cut_append hmark]
    exact h.clean

theorem WellFormed.targetQuery (h : t.WellFormed) : targetQuery t.written = t.params := by
  have hmark : (63 : UInt8) ∉ t.path.written := h.path.notMem (by decide)
  have hfew := h.fewParams
  unfold Http.targetQuery written params at *
  cases hq : t.query with
  | none =>
    dsimp only
    rw [cut_eq_none hmark]
    rfl
  | some ps =>
    rw [hq] at hfew
    dsimp only
    rw [cut_append hmark]
    exact queryPairs_written (h.query ps hq) (by simpa using hfew)

theorem WellFormed.line (h : t.WellFormed) : ∀ c ∈ t.written, inLine c ∧ c ≠ space := by
  have hpath : ∀ c ∈ t.path.written, inLine c ∧ c ≠ space :=
    fun c hc => ⟨(h.path.line c hc).1, (h.path.line c hc).2.1⟩
  have hmark : ∀ c ∈ ([38, 63] : List UInt8), inLine c ∧ c ≠ space := by
    intro c hc
    rcases List.mem_pair.mp hc with rfl | rfl
    · exact ⟨⟨by decide, by decide⟩, by decide⟩
    · exact ⟨⟨by decide, by decide⟩, by decide⟩
  unfold written
  cases hq : t.query with
  | none => exact hpath
  | some ps =>
    intro c hc
    rcases List.mem_append.mp hc with hc | hc
    · exact hpath c hc
    rcases List.mem_cons.mp hc with rfl | hc
    · exact hmark _ (by decide)
    rcases Lib.Words.mem_unwords hc with rfl | ⟨w, hw, hc⟩
    · exact hmark _ (by decide)
    obtain ⟨p, hp, rfl⟩ := List.mem_map.mp hw
    exact (h.query ps hq p hp).line c hc

end Target

end MagiTrickle.Http
