import MagiTrickle.Http.Guarded

/-!
# Clean paths and the root

`goClean` is Go's `path.Clean` of a rooted path. `path_clean` keeps at most 64
segments and drops the ones beyond, and a `..` behind them takes away one that it
kept. So it is behind from there on, until the path is back at the root: the two
agree if the path does not get deeper than that after its last root, and its
text fits the buffer (`pathClean_exact_iff`).
-/

namespace MagiTrickle.Http

def cleanSegment (kept : List Bytes) (seg : Bytes) : List Bytes :=
  if seg = [dot] then kept else if seg = [dot, dot] then kept.dropLast else kept ++ [seg]

def cleanSegments (segs : List Bytes) : List Bytes := segs.foldl cleanSegment []

def rooted : List Bytes → Bytes
  | [] => [slash]
  | seg :: segs => (seg :: segs).flatMap (slash :: ·)

/-- Go's `path.Clean` of a rooted path. -/
def goClean (text : Bytes) : Bytes := rooted (cleanSegments (segments text))

/-- The path that `mt_static_handler` joins; `none` where its buffer is too short. -/
def staticPath (skinsDir skin original : Bytes) : Option Bytes :=
  let path := skinsDir ++ slash :: (skin ++ original)
  if 1024 ≤ path.length then none else some path

/-- The path is cleaned as Go does it, and does not lead upwards in a file path. -/
def CleanedLikeGo (text : Bytes) : Prop :=
  pathClean text 512 = goClean text ∧
    ∀ skinsDir skin path, [dot, dot] ∉ segments skinsDir → [dot, dot] ∉ segments skin →
      staticPath skinsDir skin (pathClean text 512) = some path → [dot, dot] ∉ segments path

/-- After the last time it is back at the root, the path does not get deeper than 64 segments. -/
def Shallow (segs : List Bytes) : Prop :=
  ∃ before after, segs = before ++ after ∧ cleanSegments before = [] ∧
    ∀ mid, mid <+: after → (cleanSegments mid).length ≤ maxCleanSegments

/-! ## The bounded stack -/

theorem keepSegment_length_le {kept full : List Bytes} (h : kept.length ≤ full.length)
    (seg : Bytes) : (keepSegment kept seg).length ≤ (cleanSegment full seg).length := by
  unfold keepSegment cleanSegment
  split_ifs
  · exact h
  · rw [List.length_dropLast, List.length_dropLast]
    omega
  · rw [List.length_append, List.length_append]
    exact Nat.add_le_add_right h _
  · rw [List.length_append]
    omega

theorem kept_length_le {kept full : List Bytes} (h : kept.length ≤ full.length)
    (segs : List Bytes) :
    (segs.foldl keepSegment kept).length ≤ (segs.foldl cleanSegment full).length := by
  induction segs generalizing kept full with
  | nil => exact h
  | cons seg segs ih => exact ih (keepSegment_length_le h seg)

theorem kept_length_le_max {kept : List Bytes} (h : kept.length ≤ maxCleanSegments)
    (segs : List Bytes) : (segs.foldl keepSegment kept).length ≤ maxCleanSegments := by
  induction segs generalizing kept with
  | nil => exact h
  | cons seg segs ih =>
    refine ih ?_
    unfold keepSegment
    split_ifs with hdot hdots hroom
    · exact h
    · rw [List.length_dropLast]
      omega
    · rw [List.length_append]
      exact hroom
    · exact h

/-- While the path is not too deep, nothing is dropped. -/
theorem keepSegments_eq {kept : List Bytes} {segs : List Bytes}
    (h : ∀ mid, mid <+: segs → (mid.foldl cleanSegment kept).length ≤ maxCleanSegments) :
    segs.foldl keepSegment kept = segs.foldl cleanSegment kept := by
  induction segs generalizing kept with
  | nil => rfl
  | cons seg segs ih =>
    have hstep : keepSegment kept seg = cleanSegment kept seg := by
      have hone := h [seg] (List.prefix_append [seg] segs)
      rw [List.foldl_cons, List.foldl_nil] at hone
      unfold keepSegment cleanSegment at *
      split_ifs at hone ⊢ with hdot hdots hroom
      · rfl
      · rfl
      · rfl
      · rw [List.length_append, List.length_singleton] at hone
        omega
    rw [List.foldl_cons, List.foldl_cons, hstep]
    refine ih fun mid hmid => ?_
    rw [← List.foldl_cons]
    exact h (seg :: mid) (List.cons_prefix_cons.mpr ⟨rfl, hmid⟩)

theorem keepSegments_of_shallow {segs : List Bytes} (h : Shallow segs) :
    segs.foldl keepSegment [] = cleanSegments segs := by
  obtain ⟨before, after, rfl, hroot, hdepth⟩ := h
  have hlen := kept_length_le (Nat.le_refl ([] : List Bytes).length) before
  have hempty : before.foldl keepSegment [] = [] := by
    rw [show before.foldl cleanSegment [] = [] from hroot] at hlen
    exact List.length_eq_zero_iff.mp (Nat.le_zero.mp hlen)
  unfold cleanSegments at hroot ⊢
  rw [List.foldl_append, List.foldl_append, hempty, hroot]
  exact keepSegments_eq hdepth

theorem length_eq_of_step {kept full : List Bytes} {seg : Bytes} (hle : kept.length ≤ full.length)
    (h : (keepSegment kept seg).length = (cleanSegment full seg).length)
    (hne : cleanSegment full seg ≠ []) : kept.length = full.length := by
  have hpos := List.length_pos_iff.mpr hne
  unfold keepSegment cleanSegment at h
  unfold cleanSegment at hpos
  split_ifs at h hpos with hdot hdots hroom
  · exact h
  · rw [List.length_dropLast] at h hpos
    rw [List.length_dropLast] at h
    omega
  · rw [List.length_append, List.length_append] at h
    exact Nat.add_right_cancel h
  · rw [List.length_append, List.length_singleton] at h
    omega

theorem shallow_of_length_eq {segs : List Bytes}
    (h : (segs.foldl keepSegment []).length = (cleanSegments segs).length) : Shallow segs := by
  induction segs using List.reverseRecOn with
  | nil => exact ⟨[], [], rfl, rfl, fun mid hmid => by rw [List.prefix_nil.mp hmid]; decide⟩
  | append_singleton segs seg ih =>
    have hle := kept_length_le (Nat.le_refl ([] : List Bytes).length) segs
    have hmax := @kept_length_le_max [] (Nat.zero_le _) (segs ++ [seg])
    by_cases hroot : cleanSegments (segs ++ [seg]) = []
    · refine ⟨segs ++ [seg], [], (List.append_nil _).symm, hroot, fun mid hmid => ?_⟩
      rw [List.prefix_nil.mp hmid]
      exact Nat.zero_le _
    · have hbefore : (segs.foldl keepSegment []).length = (cleanSegments segs).length := by
        unfold cleanSegments at h hroot ⊢
        rw [List.foldl_append, List.foldl_append] at h
        rw [List.foldl_append] at hroot
        exact length_eq_of_step hle h hroot
      obtain ⟨before, after, rfl, hstart, hdepth⟩ := ih hbefore
      refine ⟨before, after ++ [seg], List.append_assoc _ _ _, hstart, fun mid hmid => ?_⟩
      rcases List.prefix_concat_iff.mp hmid with rfl | hmid
      · have hall : cleanSegments (before ++ after ++ [seg]) = cleanSegments (after ++ [seg]) := by
          unfold cleanSegments at hstart ⊢
          rw [List.append_assoc, List.foldl_append, hstart]
        rw [← hall, ← h]
        exact hmax
      · exact hdepth mid hmid

/-! ## The text -/

theorem take_take_append (n : Nat) (xs ys : Bytes) :
    (xs.take n ++ ys).take n = (xs ++ ys).take n := by
  rw [List.take_append, List.take_append, List.take_take, Nat.min_self, List.length_take]
  congr 2
  omega

theorem writeSegment_eq {cap : Nat} {out : Bytes} (h : out.length < cap) (first : Bool)
    (seg : Bytes) :
    writeSegment cap out first seg =
      (out ++ ((if first then [] else [slash]) ++ seg)).take (cap - 1) := by
  have htail (out : Bytes) (h : out.length < cap) :
      out ++ seg.take (if cap ≤ out.length + seg.length then cap - 1 - out.length else seg.length) =
        (out ++ seg).take (cap - 1) := by
    rw [List.take_append, List.take_of_length_le (show out.length ≤ cap - 1 by omega)]
    congr 1
    split_ifs with hlong
    · rfl
    · rw [List.take_of_length_le (Nat.le_refl _), List.take_of_length_le (by omega)]
  unfold writeSegment
  dsimp only
  cases first with
  | true => exact htail out h
  | false =>
    by_cases hroom : out.length + 1 < cap
    · rw [if_pos ⟨rfl, hroom⟩, htail _ (by rwa [List.length_append]), List.append_assoc]
      rfl
    · rw [if_neg fun hc => hroom hc.2, htail out h, List.take_append, List.take_append]
      have hzero : cap - 1 - out.length = 0 := by omega
      rw [hzero, List.take_zero, List.take_zero]

theorem writeSegments_eq {cap : Nat} {out : Bytes} (h : out.length < cap) (segs : List Bytes) :
    segs.foldl (writeSegment cap · false) out =
      (out ++ segs.flatMap (slash :: ·)).take (cap - 1) := by
  induction segs generalizing out with
  | nil =>
    rw [List.flatMap_nil, List.append_nil, List.take_of_length_le (by omega)]
    rfl
  | cons seg segs ih =>
    have hwrite := writeSegment_eq h false seg
    have hlen : (writeSegment cap out false seg).length < cap := by
      rw [hwrite, List.length_take]
      omega
    rw [List.foldl_cons, ih hlen, hwrite, take_take_append, List.append_assoc, List.flatMap_cons]
    rfl

/-- `path_clean` writes the path of the segments that it kept, as far as the buffer goes. -/
theorem pathClean_eq {cap : Nat} (h : 1 < cap) (text : Bytes) :
    pathClean text cap = (rooted ((segments text).foldl keepSegment [])).take (cap - 1) := by
  unfold pathClean
  cases (segments text).foldl keepSegment [] with
  | nil => exact (List.take_of_length_le (show 1 ≤ cap - 1 by omega)).symm
  | cons seg segs =>
    have hwrite := @writeSegment_eq cap [slash] h true seg
    have hlen : (writeSegment cap [slash] true seg).length < cap := by
      rw [hwrite, List.length_take]
      omega
    show segs.foldl (writeSegment cap · false) (writeSegment cap [slash] true seg) = _
    rw [writeSegments_eq hlen, hwrite, take_take_append, List.append_assoc]
    rfl

/-! ## Reading the segments back -/

theorem cleanSegments_spec {segs : List Bytes} (h : ∀ seg ∈ segs, seg ≠ [] ∧ slash ∉ seg) :
    ∀ seg ∈ cleanSegments segs, (seg ≠ [] ∧ slash ∉ seg) ∧ seg ≠ [dot, dot] := by
  unfold cleanSegments
  induction segs using List.reverseRecOn with
  | nil => nofun
  | append_singleton segs seg ih =>
    have ih := ih fun s hs => h s (List.mem_append_left _ hs)
    have hseg := h seg (List.mem_append_right _ (List.mem_singleton_self seg))
    rw [List.foldl_append, List.foldl_cons, List.foldl_nil]
    intro s hs
    unfold cleanSegment at hs
    split_ifs at hs with hdot hdots
    · exact ih s hs
    · exact ih s (List.mem_of_mem_dropLast hs)
    · rcases List.mem_append.mp hs with hs | hs
      · exact ih s hs
      · rw [List.mem_singleton.mp hs]
        exact ⟨hseg, hdots⟩

theorem count_rooted {segs : List Bytes} (h : ∀ seg ∈ segs, slash ∉ seg) :
    (rooted segs).count slash = max 1 segs.length := by
  have hall : ∀ {segs : List Bytes}, (∀ seg ∈ segs, slash ∉ seg) →
      (segs.flatMap (slash :: ·)).count slash = segs.length := by
    intro segs h
    induction segs with
    | nil => rfl
    | cons seg segs ih =>
      obtain ⟨hseg, hsegs⟩ := List.forall_mem_cons.mp h
      rw [List.flatMap_cons, List.count_append, ih hsegs, List.count_cons_self,
        List.count_eq_zero_of_not_mem hseg, List.length_cons, Nat.add_comm]
  cases segs with
  | nil => rfl
  | cons seg segs =>
    rw [rooted, hall h, List.length_cons]
    omega

theorem segments_slash (b : Bytes) : segments (slash :: b) = segments b :=
  @Lib.Words.fields_cons_sep _ (· = slash) slash (decide_eq_true rfl) b

theorem segments_append (a : Bytes) {b : Bytes} (h : b = [] ∨ ∃ c, b = slash :: c) :
    segments (a ++ b) = segments a ++ segments b := by
  rcases h with rfl | ⟨c, rfl⟩
  · rw [List.append_nil]
    exact (List.append_nil _).symm
  · rw [segments_slash]
    exact @Lib.Words.fields_append_cons _ (· = slash) slash (decide_eq_true rfl) a c

theorem segments_rooted {segs : List Bytes} (h : ∀ seg ∈ segs, seg ≠ [] ∧ slash ∉ seg) :
    segments (rooted segs) = segs := by
  have hall : ∀ {segs : List Bytes}, (∀ seg ∈ segs, seg ≠ [] ∧ slash ∉ seg) →
      segments (segs.flatMap (slash :: ·)) = segs := by
    intro segs h
    induction segs with
    | nil => rfl
    | cons seg segs ih =>
      obtain ⟨⟨hne, hseg⟩, hsegs⟩ := List.forall_mem_cons.mp h
      have hrest : segs.flatMap (slash :: ·) = [] ∨ ∃ c, segs.flatMap (slash :: ·) = slash :: c := by
        cases segs with
        | nil => exact .inl rfl
        | cons s segs => exact .inr ⟨_, rfl⟩
      have hword : segments seg = [seg] := by
        refine Lib.Words.fields_word ⟨hne, fun c hc => decide_eq_false ?_⟩
        rintro rfl
        exact hseg hc
      rw [List.flatMap_cons, List.cons_append, segments_slash, segments_append seg hrest, hword,
        ih hsegs]
      rfl
  cases segs with
  | nil => rfl
  | cons seg segs => exact hall h

/-! ## Agreement -/

theorem keptSegments_spec (text : Bytes) :
    ∀ seg ∈ (segments text).foldl keepSegment [], seg ≠ [] ∧ slash ∉ seg :=
  mem_keepSegments (fun _ h => mem_segments h) nofun

/-- The number of slashes tells the paths of different depth apart. -/
theorem length_eq_of_pathClean {text : Bytes} (h : pathClean text 512 = goClean text) :
    ((segments text).foldl keepSegment []).length = (cleanSegments (segments text)).length := by
  have hle := kept_length_le (Nat.le_refl ([] : List Bytes).length) (segments text)
  have hkept := keptSegments_spec text
  have hclean := cleanSegments_spec fun _ h => mem_segments (s := text) h
  rw [pathClean_eq (by decide)] at h
  have hcount : (goClean text).count slash ≤
      (rooted ((segments text).foldl keepSegment [])).count slash := by
    rw [← h]
    exact (List.take_sublist _ _).count_le slash
  rw [goClean, count_rooted fun s hs => (hclean s hs).1.2, count_rooted fun s hs => (hkept s hs).2]
    at hcount
  rcases Nat.lt_or_ge (cleanSegments (segments text)).length 2 with hfew | hmany
  · -- one segment against none: the paths differ
    rcases Nat.lt_or_ge ((segments text).foldl keepSegment []).length
      (cleanSegments (segments text)).length with hlt | hge
    · have hnone : (segments text).foldl keepSegment [] = [] := List.length_eq_zero_iff.mp (by omega)
      obtain ⟨seg, hseg⟩ := List.length_eq_one_iff.mp
        (show (cleanSegments (segments text)).length = 1 by omega)
      have hne := (hclean seg (by rw [hseg]; exact List.mem_singleton_self seg)).1.1
      rw [hnone, goClean, hseg] at h
      have hlen : [slash] = slash :: (seg ++ []) := h
      exact absurd (List.append_eq_nil_iff.mp (List.cons.inj hlen).2.symm).1 hne
    · exact Nat.le_antisymm hle hge
  · exact Nat.le_antisymm hle (by omega)

theorem exists_goClean (text : Bytes) : ∃ rest, goClean text = slash :: rest := by
  unfold goClean
  cases cleanSegments (segments text) with
  | nil => exact ⟨[], rfl⟩
  | cons seg segs => exact ⟨_, rfl⟩

/-- A clean path adds no way upwards to the directory it is joined to. -/
theorem not_mem_staticPath {text skinsDir skin path : Bytes} (hdir : [dot, dot] ∉ segments skinsDir)
    (hskin : [dot, dot] ∉ segments skin) (h : staticPath skinsDir skin (goClean text) = some path) :
    [dot, dot] ∉ segments path := by
  have hclean := cleanSegments_spec fun _ h => mem_segments (s := text) h
  unfold staticPath at h
  dsimp only at h
  split_ifs at h
  obtain rfl := Option.some.inj h
  rw [segments_append skinsDir (.inr ⟨_, rfl⟩), segments_slash,
    segments_append skin (.inr (exists_goClean text)), goClean,
    segments_rooted fun seg hseg => (hclean seg hseg).1]
  simp only [List.mem_append, not_or]
  exact ⟨hdir, hskin, fun hmem => (hclean _ hmem).2 rfl⟩

theorem pathClean_of_shallow {text : Bytes} (h : Shallow (segments text))
    (hlen : (goClean text).length < 512) : pathClean text 512 = goClean text := by
  rw [pathClean_eq (by decide), keepSegments_of_shallow h]
  exact List.take_of_length_le (Nat.le_of_lt_succ hlen)

theorem pathClean_ne {text : Bytes} (h : ¬ Shallow (segments text)) :
    pathClean text 512 ≠ goClean text :=
  fun heq => h (shallow_of_length_eq (length_eq_of_pathClean heq))

/-- A path is cleaned as Go does it, and is safe to join, exactly if it does not get too deep after
its last root and the clean path fits the buffer. -/
theorem pathClean_exact_iff (text : Bytes) :
    CleanedLikeGo text ↔ Shallow (segments text) ∧ (goClean text).length < 512 := by
  refine ⟨fun ⟨heq, _⟩ => ⟨by_contra fun hno => pathClean_ne hno heq, ?_⟩, ?_⟩
  · rw [← heq, pathClean_eq (by decide), List.length_take]
    omega
  · rintro ⟨hshallow, hlen⟩
    have heq := pathClean_of_shallow hshallow hlen
    refine ⟨heq, fun skinsDir skin path hdir hskin hpath => ?_⟩
    rw [heq] at hpath
    exact not_mem_staticPath hdir hskin hpath

/-- Of 65 segments the last is dropped, and the way upwards takes away the one before it. -/
theorem pathClean_deep :
    ¬ CleanedLikeGo ((List.replicate 65 (str "/a")).flatten ++ str "/..") := by
  intro h
  exact absurd (congrArg List.length h.1) (by decide +kernel)

end MagiTrickle.Http
