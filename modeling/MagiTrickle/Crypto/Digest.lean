import MagiTrickle.Core.Basic
import MagiTrickle.Lib.Blocks

/-!
# Digests that are fed in pieces (`init`, `update` and `final` of `crypto/`)

The three digests differ in a `Scheme`; the functions on their contexts are the
same. A context carries that its buffer has a free byte, so the loop of `update`
goes on. `final_foldl_update` says that the digest of pieces is that of the
whole message, padded and cut into blocks (`digest`).
-/

namespace MagiTrickle.Crypto

open Lib.Blocks

/-! ## The functions -/

/-- What the digests differ in. -/
structure Scheme (σ : Type) where
  /-- The size of a block. -/
  size : Nat
  /-- Where the length stands in the last block. -/
  lenPos : Nat
  init : σ
  block : σ → Bytes → σ
  /-- The field for a number of bits. -/
  lenBytes : UInt64 → Bytes
  output : σ → Bytes
  lenPos_lt : lenPos < size
  length_lenBytes : ∀ bits, (lenBytes bits).length = size - lenPos

theorem lenPos_lt_size : 56 < 64 := by decide

/-- A buffer of `n` bytes. -/
abbrev Buffer (n : Nat) := { bytes : Bytes // bytes.length = n }

/-- `memcpy` into a buffer. -/
def Buffer.write {n : Nat} (buf : Buffer n) (off : Nat) (src : Bytes) (h : off + src.length ≤ n) :
    Buffer n :=
  ⟨buf.1.take off ++ src ++ buf.1.drop (off + src.length), by
    have := buf.2
    simp
    omega⟩

/-- `mt_md5_ctx_t`, `mt_sha256_ctx_t` and `mt_sha512_ctx_t`. -/
structure Ctx {σ : Type} (s : Scheme σ) where
  state : σ
  totalLen : UInt64
  buf : Buffer s.size
  bufLen : Nat
  bufLen_lt : bufLen < s.size

namespace Ctx

variable {σ : Type} {s : Scheme σ}

/-- `init`; the buffer holds what it held. -/
def init (s : Scheme σ) (buf : Buffer s.size) : Ctx s :=
  ⟨s.init, 0, buf, 0, Nat.zero_lt_of_lt s.lenPos_lt⟩

/-- How much a turn of the loop of `update` takes. -/
def taken (ctx : Ctx s) (data : Bytes) : Nat := min (s.size - ctx.bufLen) data.length

/-- A turn of the loop of `update`: bytes into the buffer, and the block if it is full. -/
def absorb (ctx : Ctx s) (data : Bytes) : Ctx s :=
  let take := ctx.taken data
  let buf := ctx.buf.write ctx.bufLen (data.take take)
    (by have := ctx.bufLen_lt; rw [List.length_take]; unfold take taken; omega)
  if hfull : ctx.bufLen + take = s.size then
    ⟨s.block ctx.state buf.1, ctx.totalLen, buf, 0, Nat.zero_lt_of_lt s.lenPos_lt⟩
  else
    ⟨ctx.state, ctx.totalLen, buf, ctx.bufLen + take,
      by have := ctx.bufLen_lt; unfold take taken at *; omega⟩

/-- The loop of `update`. -/
def updateLoop (ctx : Ctx s) (data : Bytes) : Ctx s :=
  if data = [] then ctx else updateLoop (ctx.absorb data) (data.drop (ctx.taken data))
termination_by data.length
decreasing_by
  rename_i hdata
  have hlt := ctx.bufLen_lt
  have hpos := List.length_pos_of_ne_nil hdata
  rw [List.length_drop, taken]
  omega

/-- `update`. -/
def update (ctx : Ctx s) (data : Bytes) : Ctx s :=
  updateLoop { ctx with totalLen := ctx.totalLen + UInt64.ofNat data.length } data

theorem absorb_bufLen (ctx : Ctx s) (data : Bytes) : (ctx.absorb data).bufLen =
    if ctx.bufLen + ctx.taken data = s.size then 0 else ctx.bufLen + ctx.taken data := by
  unfold absorb
  dsimp only
  split <;> rfl

theorem bufLen_update_singleton (ctx : Ctx s) (b : UInt8) :
    (ctx.update [b]).bufLen = if ctx.bufLen + 1 = s.size then 0 else ctx.bufLen + 1 := by
  generalize htot : ({ ctx with totalLen := ctx.totalLen + UInt64.ofNat [b].length } : Ctx s) = ctx'
  have hlen : ctx'.bufLen = ctx.bufLen := by rw [← htot]
  have htaken : ctx'.taken [b] = 1 := by
    have hlt := ctx'.bufLen_lt
    rw [taken, List.length_singleton]
    omega
  rw [update, htot, updateLoop, if_neg (List.cons_ne_nil b []), htaken,
    show [b].drop 1 = [] from rfl, updateLoop, if_pos rfl, absorb_bufLen, htaken, hlen]

/-- The loop of `final` that writes zeros. -/
def padLoop (ctx : Ctx s) : Ctx s :=
  if ctx.bufLen = s.lenPos then ctx else padLoop (ctx.update [0])
termination_by zeros s.size s.lenPos ctx.bufLen
decreasing_by
  have hmod := Nat.mod_eq_of_lt ctx.bufLen_lt
  have hnext : zeros s.size s.lenPos (ctx.update [0]).bufLen =
      zeros s.size s.lenPos (ctx.bufLen + 1) := by
    rw [bufLen_update_singleton]
    split
    · rename_i heq
      rw [heq, zeros, zeros, Nat.mod_self, Nat.zero_mod]
    · rfl
  rw [hnext, @zeros_succ _ _ ctx.bufLen s.lenPos_lt (by rwa [hmod])]
  exact Nat.lt_succ_self _

/-- `final`. -/
def final (ctx : Ctx s) : Bytes :=
  let bitLen := ctx.totalLen * 8
  let ctx := padLoop (ctx.update [0x80])
  let buf := ctx.buf.write s.lenPos (s.lenBytes bitLen)
    (by have := s.lenPos_lt; rw [s.length_lenBytes]; omega)
  s.output (s.block ctx.state buf.1)

/-! ## What a context has taken -/

/-- Whole blocks are in the state, the rest is in the buffer. -/
def Folded (ctx : Ctx s) (msg : Bytes) : Prop :=
  ∃ blocks : List Bytes, (∀ b ∈ blocks, b.length = s.size) ∧
    msg = blocks.flatten ++ ctx.buf.1.take ctx.bufLen ∧ ctx.state = blocks.foldl s.block s.init

theorem folded_init (s : Scheme σ) (buf : Buffer s.size) : Folded (init s buf) [] :=
  ⟨[], by simp, rfl, rfl⟩

theorem Folded.length_mod {ctx : Ctx s} {msg : Bytes} (h : Folded ctx msg) :
    msg.length % s.size = ctx.bufLen := by
  obtain ⟨blocks, hblocks, rfl, -⟩ := h
  have hlt := ctx.bufLen_lt
  have hbuf := ctx.buf.2
  rw [List.length_append, length_flatten hblocks, List.length_take, Nat.min_eq_left (by omega),
    Nat.mul_add_mod_self_right, Nat.mod_eq_of_lt hlt]

theorem take_write {n : Nat} (buf : Buffer n) {off : Nat} {src : Bytes} (h : off + src.length ≤ n) :
    (buf.write off src h).1.take (off + src.length) = buf.1.take off ++ src := by
  have hbuf := buf.2
  have hlen : (buf.1.take off ++ src).length = off + src.length := by
    rw [List.length_append, List.length_take, Nat.min_eq_left (by omega)]
  exact List.take_left' hlen

theorem folded_absorb {ctx : Ctx s} {msg : Bytes} (h : Folded ctx msg) (data : Bytes) :
    Folded (ctx.absorb data) (msg ++ data.take (ctx.taken data)) := by
  obtain ⟨blocks, hblocks, rfl, hstate⟩ := h
  have hlt := ctx.bufLen_lt
  have hlen : (data.take (ctx.taken data)).length = ctx.taken data := by
    rw [List.length_take, taken]
    omega
  have hfits : ctx.bufLen + (data.take (ctx.taken data)).length ≤ s.size := by
    rw [hlen, taken]
    omega
  have hwrite := take_write ctx.buf hfits
  rw [hlen] at hwrite
  unfold absorb
  dsimp only
  split
  · rename_i hfull
    -- the buffer is a block
    have hbuf := (ctx.buf.write ctx.bufLen (data.take (ctx.taken data)) hfits).2
    rw [List.take_of_length_le (by omega)] at hwrite
    refine ⟨blocks ++ [(ctx.buf.write ctx.bufLen (data.take (ctx.taken data)) hfits).1], ?_, ?_, ?_⟩
    · intro b hb
      rcases List.mem_append.mp hb with hb | hb
      · exact hblocks b hb
      · rw [List.mem_singleton.mp hb, hbuf]
    · rw [List.flatten_append, List.flatten_singleton, List.take_zero, List.append_nil, hwrite,
        List.append_assoc]
    · rw [List.foldl_append, List.foldl_cons, List.foldl_nil, ← hstate]
  · exact ⟨blocks, hblocks, by rw [hwrite, List.append_assoc], hstate⟩

theorem folded_updateLoop {ctx : Ctx s} {msg : Bytes} (h : Folded ctx msg) (data : Bytes) :
    Folded (ctx.updateLoop data) (msg ++ data) := by
  induction ctx, data using updateLoop.induct generalizing msg with
  | case1 ctx => rwa [updateLoop, if_pos rfl, List.append_nil]
  | case2 ctx data hdata ih =>
    have hrest := ih (folded_absorb h data)
    rw [List.append_assoc, List.take_append_drop] at hrest
    rwa [updateLoop, if_neg hdata]

theorem totalLen_updateLoop (ctx : Ctx s) (data : Bytes) :
    (ctx.updateLoop data).totalLen = ctx.totalLen := by
  induction ctx, data using updateLoop.induct with
  | case1 ctx => rw [updateLoop, if_pos rfl]
  | case2 ctx data hdata ih =>
    rw [updateLoop, if_neg hdata, ih, absorb]
    split <;> rfl

theorem folded_update {ctx : Ctx s} {msg : Bytes} (h : Folded ctx msg) (data : Bytes) :
    Folded (ctx.update data) (msg ++ data) :=
  @folded_updateLoop _ _ { ctx with totalLen := ctx.totalLen + UInt64.ofNat data.length } msg h data

theorem foldl_update {ctx : Ctx s} {msg : Bytes} (h : Folded ctx msg)
    (htotal : ctx.totalLen = UInt64.ofNat msg.length) (pieces : List Bytes) :
    Folded (pieces.foldl update ctx) (msg ++ pieces.flatten) ∧
      (pieces.foldl update ctx).totalLen = UInt64.ofNat (msg ++ pieces.flatten).length := by
  induction pieces generalizing ctx msg with
  | nil =>
    rw [List.flatten_nil, List.append_nil]
    exact ⟨h, htotal⟩
  | cons piece pieces ih =>
    have hlen : (ctx.update piece).totalLen = UInt64.ofNat (msg ++ piece).length := by
      rw [update, totalLen_updateLoop, htotal, List.length_append, UInt64.ofNat_add]
    have hrest := ih (folded_update h piece) hlen
    rwa [List.append_assoc] at hrest

/-- The zeros take the buffer to the place of the length field. -/
theorem folded_padLoop {ctx : Ctx s} {msg : Bytes} (h : Folded ctx msg) :
    Folded ctx.padLoop (msg ++ List.replicate (zeros s.size s.lenPos msg.length) 0) ∧
      ctx.padLoop.bufLen = s.lenPos := by
  induction ctx using padLoop.induct generalizing msg with
  | case1 ctx hpos =>
    rw [padLoop, if_pos hpos, zeros_of_mod s.lenPos_lt (h.length_mod.trans hpos),
      List.replicate_zero, List.append_nil]
    exact ⟨h, hpos⟩
  | case2 ctx hpos ih =>
    have hzeros : zeros s.size s.lenPos msg.length =
        zeros s.size s.lenPos (msg ++ [0]).length + 1 := by
      rw [List.length_append, List.length_singleton]
      exact zeros_succ s.lenPos_lt (by rwa [h.length_mod])
    have hrest := ih (folded_update h [0])
    rw [padLoop, if_neg hpos, hzeros, List.replicate_succ]
    rwa [List.append_assoc, List.singleton_append] at hrest

end Ctx

/-! ## The digest of a message -/

/-- The digest of a message as a whole: the block function over the blocks of the message, padded
with `0x80`, zeros and a field for the length. -/
def digest {σ : Type} (s : Scheme σ) (lenField : Nat → Bytes) (msg : Bytes) : Bytes :=
  s.output ((chunks s.size (pad s.size s.lenPos 0x80 0 (lenField msg.length) msg)).foldl s.block
    s.init)

/-- Feeding a message in pieces gives its digest. -/
theorem final_foldl_update {σ : Type} (s : Scheme σ) {lenField : Nat → Bytes} (buf : Buffer s.size)
    (pieces : List Bytes)
    (hfield : s.lenBytes (UInt64.ofNat pieces.flatten.length * 8) =
      lenField pieces.flatten.length) :
    (pieces.foldl Ctx.update (Ctx.init s buf)).final = digest s lenField pieces.flatten := by
  obtain ⟨hfolded, htotal⟩ := Ctx.foldl_update (Ctx.folded_init s buf) rfl pieces
  rw [List.nil_append] at hfolded htotal
  generalize pieces.foldl Ctx.update (Ctx.init s buf) = ctx at hfolded htotal
  obtain ⟨hpad, hpos⟩ := Ctx.folded_padLoop (Ctx.folded_update hfolded [0x80])
  generalize hctx : (ctx.update [0x80]).padLoop = last at hpad hpos
  obtain ⟨blocks, hblocks, hmsg, hstate⟩ := hpad
  have hfits : s.lenPos + (s.lenBytes (ctx.totalLen * 8)).length ≤ s.size := by
    rw [s.length_lenBytes]
    have := s.lenPos_lt
    omega
  have hfull : s.lenPos + (s.lenBytes (ctx.totalLen * 8)).length = s.size := by
    rw [s.length_lenBytes]
    have := s.lenPos_lt
    omega
  have hwrite := Ctx.take_write last.buf hfits
  have hlen := (last.buf.write s.lenPos (s.lenBytes (ctx.totalLen * 8)) hfits).2
  rw [List.take_of_length_le (by omega)] at hwrite
  have hfinal : ctx.final =
      s.output (s.block last.state (last.buf.write s.lenPos (s.lenBytes (ctx.totalLen * 8)) hfits).1) := by
    unfold Ctx.final
    simp only [hctx]
  generalize (last.buf.write s.lenPos (s.lenBytes (ctx.totalLen * 8)) hfits).1 = block at *
  -- the blocks of the padded message are the blocks folded so far and the last one
  have hpadded : pad s.size s.lenPos 0x80 0 (lenField pieces.flatten.length) pieces.flatten =
      (blocks ++ [block]).flatten := by
    rw [List.length_append, List.length_singleton, hpos] at hmsg
    rw [pad, hmsg, ← hfield, ← htotal, List.flatten_append, List.flatten_singleton, hwrite,
      List.append_assoc]
  have hblocks' : ∀ b ∈ blocks ++ [block], b.length = s.size := by
    intro b hb
    rcases List.mem_append.mp hb with hb | hb
    · exact hblocks b hb
    · rw [List.mem_singleton.mp hb, hlen]
  rw [hfinal, digest, hpadded, chunks_flatten (Nat.zero_lt_of_lt s.lenPos_lt) hblocks',
    List.foldl_append, List.foldl_cons, List.foldl_nil, hstate]

/-! ## Fields -/

def lenBytesLittle (bits : UInt64) : Bytes :=
  (List.range 8).map fun i => (bits >>> (8 * UInt64.ofNat i)).toUInt8

theorem toUInt8_shiftRight (bits : UInt64) {i : Nat} (hi : i < 8) :
    (bits >>> (8 * UInt64.ofNat i)).toUInt8 = UInt8.ofNat (bits.toNat / 256 ^ i) := by
  have hshift : (8 * UInt64.ofNat i).toNat % 64 = 8 * i := by
    rw [UInt64.toNat_mul, UInt64.toNat_ofNat_of_lt' (by rw [UInt64.size]; omega)]
    show 8 * i % 2 ^ 64 % 64 = 8 * i
    omega
  rw [← UInt8.toNat_inj, UInt64.toNat_toUInt8, UInt64.toNat_shiftRight, hshift,
    Nat.shiftRight_eq_div_pow, Nat.pow_mul, UInt8.toNat_ofNat']

/-- The field for a number of bits that is less than `2 ^ 64`. -/
theorem lenBytesLittle_eq {n : Nat} (hn : n < 2 ^ 61) :
    lenBytesLittle (UInt64.ofNat n * 8) = littleEndian 8 (8 * n) := by
  have hbits : (UInt64.ofNat n * 8).toNat = 8 * n := by
    rw [UInt64.toNat_mul, UInt64.toNat_ofNat_of_lt' (by rw [UInt64.size]; omega)]
    show n * 8 % 2 ^ 64 = 8 * n
    omega
  refine List.map_congr_left fun i hi => ?_
  rw [toUInt8_shiftRight _ (List.mem_range.mp hi), hbits]

end MagiTrickle.Crypto
