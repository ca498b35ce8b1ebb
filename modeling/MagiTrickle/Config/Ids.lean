import MagiTrickle.Config.Models

/-!
# Identifiers (`config/id.c`) and their conflicts (`yaml_load.c`)

An identifier is written as eight hexadecimal digits. `groupIdsConflict` is the
check of the loader: it refuses a group whose id is taken, or one whose own
rules share an id. Its answer is `false` for every group of a configuration
exactly if the ids are distinct (`loadAccepts_iff`).
-/

namespace MagiTrickle

/-- `hex_val`. -/
def hexVal (c : UInt8) : Option UInt8 :=
  if 48 ≤ c ∧ c ≤ 57 then some (c - 48)
  else if 97 ≤ c ∧ c ≤ 102 then some (c - 97 + 10)
  else if 65 ≤ c ∧ c ≤ 70 then some (c - 65 + 10)
  else none

namespace Id

def parseByte (hi lo : UInt8) : Option UInt8 := do
  let hi ← hexVal hi
  let lo ← hexVal lo
  return (hi <<< 4) ||| lo

/-- `mt_id_parse`. -/
def parse : Bytes → Option Id
  | [h0, l0, h1, l1, h2, l2, h3, l3] => do
    let b0 ← parseByte h0 l0
    let b1 ← parseByte h1 l1
    let b2 ← parseByte h2 l2
    let b3 ← parseByte h3 l3
    return ⟨b0, b1, b2, b3⟩
  | _ => none

/-- The digit of a nibble, from `digits`. -/
def hexDigit (n : UInt8) : UInt8 := (str "0123456789abcdef").getD n.toNat 0

/-- `mt_id_format`. -/
def format (id : Id) : Bytes :=
  [id.b0, id.b1, id.b2, id.b3].flatMap fun b : UInt8 => [hexDigit (b >>> 4), hexDigit (b &&& 0x0f)]

/-- `mt_id_is_zero`. -/
def isZero (id : Id) : Bool := id.b0 = 0 ∧ id.b1 = 0 ∧ id.b2 = 0 ∧ id.b3 = 0

end Id

theorem parseByte_hexDigit (b : UInt8) :
    Id.parseByte (Id.hexDigit (b >>> 4)) (Id.hexDigit (b &&& 0x0f)) = some b := by
  have hall : ∀ n < 256, Id.parseByte (Id.hexDigit (UInt8.ofNat n >>> 4))
      (Id.hexDigit (UInt8.ofNat n &&& 0x0f)) = some (UInt8.ofNat n) := by decide +kernel
  have hb := hall b.toNat b.toNat_lt
  rwa [UInt8.ofNat_toNat] at hb

@[simp] theorem Id.parse_format (id : Id) : Id.parse id.format = some id := by
  unfold Id.format
  simp only [List.flatMap_cons, List.flatMap_nil, List.cons_append, List.nil_append, Id.parse,
    parseByte_hexDigit]
  rfl

/-- `mt_err_str`. -/
def Err.str : Err → Bytes
  | .nomem => MagiTrickle.str "out of memory"
  | .inval => MagiTrickle.str "invalid argument"
  | .io => MagiTrickle.str "i/o error"
  | .again => MagiTrickle.str "try again"
  | .limit => MagiTrickle.str "limit reached"
  | .timeout => MagiTrickle.str "timeout"
  | .closed => MagiTrickle.str "closed"
  | .exist => MagiTrickle.str "already exists"
  | .noent => MagiTrickle.str "not found"
  | .proto => MagiTrickle.str "protocol error"
  | .state => MagiTrickle.str "invalid state"
  | .sys => MagiTrickle.str "system error"
  | .upstream => MagiTrickle.str "upstream fetch failed"
  | .canceled => MagiTrickle.str "canceled"

namespace Config

/-- The double loop over the rule ids of a group. -/
def ruleIdsConflict : List Rule → Bool
  | [] => false
  | r :: rs => rs.any (fun r' => r.id = r'.id) || ruleIdsConflict rs

/-- `group_ids_conflict`. -/
def groupIdsConflict (groups : List Group) (g : Group) : Bool :=
  groups.any (fun g' => g'.id = g.id) || ruleIdsConflict g.rules.items

/-- The loader's loop over the groups of a document, with nothing but the check for conflicts: the
groups are added one after the other to `groups`. -/
def loadAccepts (groups : List Group) : List Group → Bool
  | [] => true
  | g :: gs => !groupIdsConflict groups g && loadAccepts (groups ++ [g]) gs

theorem ruleIdsConflict_eq_false {rs : List Rule} :
    ruleIdsConflict rs = false ↔ (rs.map Rule.id).Nodup := by
  induction rs with
  | nil => simp [ruleIdsConflict]
  | cons r rs ih =>
    rw [ruleIdsConflict, Bool.or_eq_false_iff, ih, List.map_cons, List.nodup_cons]
    refine and_congr_left' ?_
    rw [List.any_eq_false, List.mem_map]
    simp only [decide_eq_true_eq, not_exists, not_and]
    exact forall₂_congr fun r' _ => ⟨fun h h' => h h'.symm, fun h h' => h h'.symm⟩

theorem groupIdsConflict_eq_false {groups : List Group} {g : Group} :
    groupIdsConflict groups g = false ↔
      g.id ∉ groups.map Group.id ∧ (g.rules.items.map Rule.id).Nodup := by
  rw [groupIdsConflict, Bool.or_eq_false_iff, ruleIdsConflict_eq_false]
  refine and_congr_left' ?_
  rw [List.any_eq_false, List.mem_map]
  simp only [decide_eq_true_eq, not_exists, not_and]

/-- The ids of the groups, and those of the rules of each group, are pairwise distinct. -/
def UniqueIds (groups : List Group) : Prop :=
  (groups.map Group.id).Nodup ∧ ∀ g ∈ groups, (g.rules.items.map Rule.id).Nodup

instance (groups : List Group) : Decidable (UniqueIds groups) :=
  inferInstanceAs (Decidable (_ ∧ _))

theorem UniqueIds.sublist {groups groups' : List Group} (h : UniqueIds groups')
    (hs : groups.Sublist groups') : UniqueIds groups :=
  ⟨h.1.sublist (hs.map _), fun g hg => h.2 g (hs.subset hg)⟩

theorem uniqueIds_append_singleton {groups : List Group} {g : Group} :
    UniqueIds (groups ++ [g]) ↔ UniqueIds groups ∧ groupIdsConflict groups g = false := by
  rw [groupIdsConflict_eq_false]
  unfold UniqueIds
  simp only [List.map_append, List.map_cons, List.map_nil, List.nodup_append, List.mem_append,
    List.mem_singleton, List.nodup_cons, List.not_mem_nil, List.nodup_nil]
  grind

theorem loadAccepts_iff {groups gs : List Group} (h : UniqueIds groups) :
    loadAccepts groups gs = true ↔ UniqueIds (groups ++ gs) := by
  induction gs generalizing groups with
  | nil => simp [loadAccepts, h]
  | cons g gs ih =>
    rw [loadAccepts, Bool.and_eq_true, Bool.not_eq_true']
    by_cases hc : groupIdsConflict groups g = false
    · rw [ih (uniqueIds_append_singleton.mpr ⟨h, hc⟩), List.append_assoc, List.singleton_append]
      exact and_iff_right hc
    · refine ⟨fun hg => absurd hg.1 hc, fun hu => absurd ?_ hc⟩
      have hsub : (groups ++ [g]).Sublist (groups ++ g :: gs) :=
        (List.Sublist.refl groups).append (List.singleton_sublist.mpr List.mem_cons_self)
      exact (uniqueIds_append_singleton.mp (hu.sublist hsub)).2

end Config

end MagiTrickle
