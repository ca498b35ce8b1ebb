import MagiTrickle.Core.Basic

/-!
# Growing buffers (`util/bytebuf.c`)

The bytes lie in a block whose size doubles up to a limit. An append that would
go beyond the limit is refused as a whole, and every other one finds room.
-/

namespace MagiTrickle.Platform

/-- `MT_BYTEBUF_MAX_DEFAULT`. -/
def bytebufMaxDefault : Nat := 64 * 1024 * 1024

/-- `mt_bytebuf_t`. -/
structure ByteBuf where
  data : Bytes
  cap : Nat
  maxCap : Nat
  fits : data.length ≤ cap
  bounded : cap ≤ maxCap

namespace ByteBuf

/-- `mt_bytebuf_init_bounded`. -/
def initBounded (maxCap : Nat) : ByteBuf where
  data := []
  cap := 0
  maxCap := if maxCap = 0 then bytebufMaxDefault else maxCap
  fits := Nat.le_refl 0
  bounded := Nat.zero_le _

/-- `mt_bytebuf_init`. -/
def init : ByteBuf := initBounded 0

/-- The loop that doubles the capacity; the fuel is the size that is needed. -/
def grow (maxCap need : Nat) : Nat → Nat → Nat
  | 0, newcap => newcap
  | fuel + 1, newcap =>
    if newcap < need then
      if newcap > maxCap / 2 then maxCap else grow maxCap need fuel (newcap * 2)
    else newcap

/-- The capacity of the block that has room for `need` bytes. -/
def newCap (b : ByteBuf) (need : Nat) : Nat :=
  min (grow b.maxCap need need (if b.cap = 0 then 4096 else b.cap)) b.maxCap

theorem grow_ge {maxCap need : Nat} (hmax : need ≤ maxCap) (fuel : Nat) {newcap : Nat}
    (hpos : 0 < newcap) (hfuel : need ≤ newcap + fuel) :
    need ≤ grow maxCap need fuel newcap := by
  induction fuel generalizing newcap with
  | zero => exact hfuel
  | succ fuel ih =>
    unfold grow
    split_ifs with hlt hhalf
    · exact hmax
    · exact ih (by omega) (by omega)
    · omega

theorem newCap_ge (b : ByteBuf) {need : Nat} (hmax : need ≤ b.maxCap) : need ≤ b.newCap need := by
  refine Nat.le_min.mpr ⟨grow_ge hmax need ?_ (Nat.le_add_left _ _), hmax⟩
  split <;> omega

theorem newCap_le (b : ByteBuf) (need : Nat) : b.newCap need ≤ b.maxCap := Nat.min_le_right _ _

theorem append_fits (b : ByteBuf) {bs : Bytes}
    (h : ¬ (bs.length > b.maxCap ∨ b.data.length > b.maxCap - bs.length)) :
    (b.data ++ bs).length ≤ b.newCap (b.data.length + bs.length) := by
  rw [List.length_append]
  exact b.newCap_ge (by omega)

theorem append_fits_block (b : ByteBuf) {bs : Bytes} (h : ¬ b.data.length + bs.length > b.cap) :
    (b.data ++ bs).length ≤ b.cap := by
  rw [List.length_append]
  exact Nat.le_of_not_lt h

/-- `mt_bytebuf_append`. -/
def append (b : ByteBuf) (bs : Bytes) : Except Err ByteBuf :=
  if bs = [] then .ok b
  else if h : bs.length > b.maxCap ∨ b.data.length > b.maxCap - bs.length then .error .limit
  else if hcap : b.data.length + bs.length > b.cap then
    .ok ⟨b.data ++ bs, b.newCap (b.data.length + bs.length), b.maxCap, b.append_fits h,
      b.newCap_le _⟩
  else .ok ⟨b.data ++ bs, b.cap, b.maxCap, b.append_fits_block hcap, b.bounded⟩

/-- An append succeeds exactly if the bytes stay within the limit, and then they stand behind the
others; there is no other error than that of the limit. -/
theorem append_spec (b : ByteBuf) (bs : Bytes) :
    (b.append bs = .error .limit ∧ b.maxCap < b.data.length + bs.length) ∨
      ∃ b', b.append bs = .ok b' ∧ b'.data = b.data ++ bs ∧ b'.maxCap = b.maxCap ∧
        b.data.length + bs.length ≤ b.maxCap := by
  have hlen := b.fits
  have hmax := b.bounded
  unfold append
  split_ifs with hnil hlimit hcap
  · subst hnil
    exact .inr ⟨b, rfl, (List.append_nil _).symm, rfl, by rw [List.length_nil]; omega⟩
  · exact .inl ⟨rfl, by omega⟩
  · exact .inr ⟨_, rfl, rfl, rfl, by omega⟩
  · exact .inr ⟨_, rfl, rfl, rfl, by omega⟩

end ByteBuf

end MagiTrickle.Platform
