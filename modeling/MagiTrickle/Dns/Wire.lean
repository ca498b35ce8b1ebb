import MagiTrickle.Core.Basic
import MagiTrickle.Lib.Reader

/-!
# DNS messages on the wire (`dns/wire.c`)

A message is parsed with every name decompressed, in the owner fields and in the
data of the types that may hold compressed names, and packed without
compression. A name is kept in wire form: labels with their lengths, and the
root.
-/

namespace MagiTrickle.Dns.Wire

open Lib

/-- `MT_DNS_MAX_MSG` -/
def maxMsg : Nat := 65535

/-- `MT_DNS_MAX_NAME`: octets of a name, the root included. -/
def maxName : Nat := 255

/-- `MT_DNS_HEADER_LEN` -/
def headerLen : Nat := 12

/-- `MAX_POINTER_JUMPS` -/
def maxPointerJumps : Nat := 32

def typeA : UInt16 := 1
def typeNs : UInt16 := 2
def typeCname : UInt16 := 5
def typeSoa : UInt16 := 6
def typePtr : UInt16 := 12
def typeMx : UInt16 := 15
def typeAaaa : UInt16 := 28
def typeSrv : UInt16 := 33

/-- `mt_dns_question_t`. -/
structure Question where
  name : Bytes
  qtype : UInt16
  qclass : UInt16
  deriving DecidableEq, Repr

/-- `mt_dns_rr_t`. -/
structure Rr where
  name : Bytes
  rtype : UInt16
  rclass : UInt16
  ttl : UInt32
  rdata : Bytes
  deriving DecidableEq, Repr

/-- `mt_dns_msg_t`. -/
structure Msg where
  id : UInt16
  flags : UInt16
  questions : List Question
  answers : List Rr
  authority : List Rr
  additional : List Rr
  deriving DecidableEq, Repr

/-! ## Reading -/

abbrev Rd := Reader UInt8

def rdU16 : Rd UInt16 := fun buf pos => do
  let a ← buf[pos]?
  let b ← buf[pos + 1]?
  return (a.toUInt16 <<< 8 ||| b.toUInt16, pos + 2)

def rdU32 : Rd UInt32 := fun buf pos => do
  let a ← buf[pos]?
  let b ← buf[pos + 1]?
  let c ← buf[pos + 2]?
  let d ← buf[pos + 3]?
  return (a.toUInt32 <<< 24 ||| b.toUInt32 <<< 16 ||| c.toUInt32 <<< 8 ||| d.toUInt32, pos + 4)

/-- The loop of `rd_name`: `out` is what has been written, `after` is `after_first_pointer`. A jump
and a label are each bounded, so `fuel` does not run out (`rdNameLoop_fuel`). -/
def rdNameLoop (buf : Bytes) : Nat → Nat → Bytes → Nat → Option Nat → Option (Bytes × Nat)
  | 0, _, _, _, _ => none
  | fuel + 1, pos, out, jumps, after =>
    match buf[pos]? with
    | none => none
    | some len8 =>
      if len8 &&& 0xC0 = 0xC0 then
        match buf[pos + 1]? with
        | none => none
        | some low =>
          if jumps + 1 > maxPointerJumps then none
          else
            let target := (len8 &&& 0x3F).toNat <<< 8 ||| low.toNat
            if target ≥ buf.length then none
            else rdNameLoop buf fuel target out (jumps + 1) (some (after.getD (pos + 2)))
      else if len8 &&& 0xC0 ≠ 0 then none
      else if len8 = 0 then
        if out.length + 1 > maxName then none
        else some (out ++ [0], after.getD (pos + 1))
      else if pos + 1 + len8.toNat > buf.length then none
      else if out.length + 1 + len8.toNat + 1 > maxName + 1 then none
      else
        rdNameLoop buf fuel (pos + 1 + len8.toNat)
          (out ++ len8 :: (buf.drop (pos + 1)).take len8.toNat) jumps after

def nameFuel : Nat := maxPointerJumps + maxName + 1

def rdName : Rd Bytes := fun buf pos => rdNameLoop buf nameFuel pos [] 0 none

/-- NS, CNAME, SOA, MB, MG, MR, PTR, MINFO, MX, RP, AFSDB, RT, SRV, KX, DNAME. -/
def typeHasCompressibleRdata (t : UInt16) : Bool :=
  t ∈ [typeNs, typeCname, typeSoa, 7, 8, 9, typePtr, 14, typeMx, 17, 18, 21, typeSrv, 36, 39]

def fixedLen (rtype : UInt16) : Nat :=
  if rtype ∈ [typeMx, 18, 21, 36] then 2 else if rtype = typeSrv then 6 else 0

def nameCount (rtype : UInt16) : Nat := if rtype ∈ [typeSoa, 14, 17] then 2 else 1

/-- The octets behind the last name: the counters of a SOA. -/
def trailLen (rtype : UInt16) : Nat := if rtype = typeSoa then 20 else 0

/-- A name inside rdata that ends at `rdEnd`. -/
def rdNameWithin (rdEnd : Nat) : Rd Bytes := do
  let name ← rdName
  let pos ← Reader.pos
  Reader.ensure (pos ≤ rdEnd)
  return name

/-- The next `n` octets of rdata that ends at `rdEnd`. -/
def takeWithin (rdEnd n : Nat) : Rd Bytes := do
  let pos ← Reader.pos
  Reader.ensure (pos + n ≤ rdEnd)
  Reader.take n

def canonicalizeRdata (rdEnd : Nat) (rtype : UInt16) : Rd Bytes := do
  let fixed ← takeWithin rdEnd (fixedLen rtype)
  let names ← Reader.times (rdNameWithin rdEnd) (nameCount rtype)
  let trail ← takeWithin rdEnd (trailLen rtype)
  let pos ← Reader.pos
  Reader.ensure (pos = rdEnd)
  return fixed ++ names.flatten ++ trail

/-- The rdata of `parse_rr`. -/
def parseRdata (rtype : UInt16) (rdlength : Nat) : Rd Bytes := do
  let pos ← Reader.pos
  let len ← Reader.size
  Reader.ensure (pos + rdlength ≤ len)
  if typeHasCompressibleRdata rtype then canonicalizeRdata (pos + rdlength) rtype
  else Reader.take rdlength

def parseRr : Rd Rr := do
  let name ← rdName
  let rtype ← rdU16
  let rclass ← rdU16
  let ttl ← rdU32
  let rdlength ← rdU16
  let rdata ← parseRdata rtype rdlength.toNat
  return { name, rtype, rclass, ttl, rdata }

def parseQuestion : Rd Question := do
  let name ← rdName
  let qtype ← rdU16
  let qclass ← rdU16
  return { name, qtype, qclass }

structure Header where
  id : UInt16
  flags : UInt16
  qd : UInt16
  an : UInt16
  ns : UInt16
  ar : UInt16
  deriving DecidableEq, Repr

def rdHeader : Rd Header := do
  let id ← rdU16
  let flags ← rdU16
  let qd ← rdU16
  let an ← rdU16
  let ns ← rdU16
  let ar ← rdU16
  return { id, flags, qd, an, ns, ar }

def parseSections (h : Header) : Rd Msg := do
  let questions ← Reader.times parseQuestion h.qd.toNat
  let answers ← Reader.times parseRr h.an.toNat
  let authority ← Reader.times parseRr h.ns.toNat
  let additional ← Reader.times parseRr h.ar.toNat
  return { id := h.id, flags := h.flags, questions, answers, authority, additional }

/-- The body of `mt_dns_msg_parse`. A message that ends with its header has no sections, whatever
the counts. -/
def parseMsg : Rd Msg := do
  let h ← rdHeader
  let pos ← Reader.pos
  let len ← Reader.size
  if pos = len then
    return { id := h.id, flags := h.flags, questions := [], answers := [], authority := [],
             additional := [] }
  else parseSections h

/-- `mt_dns_msg_parse`. Bytes behind the last section are ignored. -/
def msgParse (buf : Bytes) : Except Err Msg :=
  if buf.length < headerLen ∨ buf.length > maxMsg then .error .proto
  else match parseMsg buf 0 with
    | none => .error .proto
    | some (msg, _) => .ok msg

/-! ## Packing -/

def wrU16 (v : UInt16) : Bytes := [(v >>> 8).toUInt8, v.toUInt8]

def wrU32 (v : UInt32) : Bytes :=
  [(v >>> 24).toUInt8, (v >>> 16).toUInt8, (v >>> 8).toUInt8, v.toUInt8]

def wrQuestion (q : Question) : Bytes := q.name ++ (wrU16 q.qtype ++ wrU16 q.qclass)

def wrRr (rr : Rr) : Option Bytes :=
  if rr.rdata.length > 0xFFFF then none
  else
    some (rr.name ++ (wrU16 rr.rtype ++ (wrU16 rr.rclass ++ (wrU32 rr.ttl ++
      (wrU16 rr.rdata.length.toUInt16 ++ rr.rdata)))))

def wrSection (rrs : List Rr) : Option Bytes := (rrs.mapM wrRr).map List.flatten

def wrHeader (msg : Msg) : Bytes :=
  wrU16 msg.id ++ (wrU16 msg.flags ++ (wrU16 msg.questions.length.toUInt16 ++
    (wrU16 msg.answers.length.toUInt16 ++ (wrU16 msg.authority.length.toUInt16 ++
      wrU16 msg.additional.length.toUInt16))))

/-- `mt_dns_msg_pack`. -/
def msgPack (msg : Msg) : Except Err Bytes :=
  let w := do
    let answers ← wrSection msg.answers
    let authority ← wrSection msg.authority
    let additional ← wrSection msg.additional
    return wrHeader msg ++ (msg.questions.flatMap wrQuestion ++ (answers ++ (authority ++
      additional)))
  match w with
  | none => .error .nomem
  | some w => if w.length > maxMsg then .error .limit else .ok w

/-- The loop of `mt_dns_msg_strip_aaaa` from answer `i` on: what is kept moves to the front. -/
def stripLoop : Nat → List Rr → Nat → Nat → List Rr × Nat
  | 0, answers, _, kept => (answers, kept)
  | rest + 1, answers, i, kept =>
    match answers[i]? with
    | none => (answers, kept)
    | some rr =>
      if rr.rtype = typeAaaa then stripLoop rest answers (i + 1) kept
      else stripLoop rest (if kept ≠ i then answers.set kept rr else answers) (i + 1) (kept + 1)

/-- `mt_dns_msg_strip_aaaa`. -/
def msgStripAaaa (msg : Msg) : Msg :=
  let (answers, kept) := stripLoop msg.answers.length msg.answers 0 0
  { msg with answers := answers.take kept }

end MagiTrickle.Dns.Wire
