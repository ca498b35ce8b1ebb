import MagiTrickle.Http.Target

/-!
# Well-formed requests

A request as a client composes it (`Message`), the bytes it puts on the wire,
and what the router is to be given for it. `parse_headers` reads back what was
composed, and the blank line is found where the headers end, also in a buffer
that goes on.
-/

namespace MagiTrickle.Http

/-- A header field; `pad` is the number of spaces behind the colon. -/
structure Field where
  name : Bytes
  pad : Nat
  value : Bytes

def Field.line (f : Field) : Bytes := f.name ++ 58 :: (List.replicate f.pad space ++ f.value)

/-- A request. Lines end with CRLF or, as from the hook's shell script, with LF alone. -/
structure Message where
  method : Bytes
  target : Target
  http10 : Bool
  fields : List Field
  body : Bytes
  crlf : Bool

namespace Message

variable (m : Message)

def eol : Bytes := if m.crlf then [cr, nl] else [nl]

def requestLine : Bytes :=
  m.method ++ space :: (m.target.written ++ space :: str (if m.http10 then "HTTP/1.0" else "HTTP/1.1"))

def lines : List Bytes := m.requestLine :: m.fields.map Field.line

def head : Bytes := m.lines.flatMap (· ++ m.eol) ++ m.eol

def bytes : Bytes := m.head ++ m.body

def headers : List Kv := m.fields.map fun f => ⟨f.name, f.value⟩

/-- What the router is to be given; its path is documented as cleaned. -/
def req : Req where
  method := m.method
  path := goClean m.target.path.text
  query := m.target.params
  params := []
  headers := m.headers
  body := m.body

/-- The client asks to keep the connection. -/
def saysKeepAlive : Prop :=
  ∃ v, findHeader m.headers (str "Connection") = some v ∧ sameText v (str "keep-alive") = true

/-- The connection persists: it is asked for, or the default of HTTP/1.1. -/
def keepAlive : Prop :=
  m.saysKeepAlive ∨ m.http10 = false ∧
    ∀ v, findHeader m.headers (str "Connection") = some v → sameText v (str "close") = false

end Message

/-- A field that fits the server's buffers. -/
structure Field.WellFormed (f : Field) : Prop where
  name : ∀ c ∈ f.name, inLine c ∧ c ≠ 0 ∧ c ≠ 58
  value : ∀ c ∈ f.value, inLine c ∧ c ≠ 0
  trimmed : f.value.head? ≠ some space
  shortName : f.name.length < 64
  shortValue : f.value.length ≤ 511

/-- A request within the limits of the server, with the length of its body in the headers. -/
structure Message.WellFormed (m : Message) : Prop where
  method : ∀ c ∈ m.method, inLine c ∧ c ≠ 0 ∧ c ≠ space
  shortMethod : m.method.length < 8
  target : m.target.WellFormed
  fields : ∀ f ∈ m.fields, f.WellFormed
  fewFields : m.fields.length ≤ maxReqHeaders
  shortHead : m.head.length ≤ maxHeaderBytes
  shortBody : m.body.length ≤ maxBodyBytes
  length : match findHeader m.headers (str "Content-Length") with
    | some v => v ≠ [] ∧ (∀ c ∈ v, Libc.isDigit c = true) ∧ Libc.decimal v = m.body.length
    | none => m.body = []

/-! ## The blank line -/

theorem blankLine_cons {a : UInt8} {rest : Bytes}
    (h₁ : ¬ (a = 13 ∧ ∃ t, rest = 10 :: 13 :: 10 :: t)) (h₂ : ¬ (a = 10 ∧ ∃ t, rest = 10 :: t)) :
    blankLine (a :: rest) = (blankLine rest).map (· + 1) := by
  rw [blankLine]
  · exact fun t ha ht => h₁ ⟨ha, t, ht⟩
  · exact fun t ha ht => h₂ ⟨ha, t, ht⟩

theorem blankLine_inLine {a : UInt8} (h : inLine a) (rest : Bytes) :
    blankLine (a :: rest) = (blankLine rest).map (· + 1) :=
  blankLine_cons (fun hc => h.2 hc.1) (fun hc => h.1 hc.1)

theorem blankLine_line {line : Bytes} (h : ∀ c ∈ line, inLine c) (rest : Bytes) :
    blankLine (line ++ rest) = (blankLine rest).map (· + line.length) := by
  induction line with
  | nil => simp
  | cons a line ih =>
    rw [List.cons_append, blankLine_inLine (h a (List.mem_cons_self ..)),
      ih fun c hc => h c (List.mem_cons_of_mem _ hc), Option.map_map]
    rfl

theorem blankLine_eol (m : Message) {a : UInt8} (h : inLine a) (rest : Bytes) :
    blankLine (m.eol ++ a :: rest) = (blankLine (a :: rest)).map (· + m.eol.length) := by
  unfold Message.eol
  split
  · rw [List.cons_append, List.singleton_append, blankLine_cons, blankLine_cons, Option.map_map]
    · rfl
    · exact fun hc => absurd hc.1 (by decide)
    · rintro ⟨-, t, ht⟩
      exact h.1 (List.cons.inj ht).1
    · rintro ⟨-, t, ht⟩
      exact h.2 (List.cons.inj (List.cons.inj ht).2).1
    · exact fun hc => absurd hc.1 (by decide)
  · rw [List.singleton_append, blankLine_cons]
    · rfl
    · exact fun hc => absurd hc.1 (by decide)
    · rintro ⟨-, t, ht⟩
      exact h.1 (List.cons.inj ht).1

theorem blankLine_eol_eol (m : Message) (rest : Bytes) :
    blankLine (m.eol ++ (m.eol ++ rest)) = some (2 * m.eol.length) := by
  unfold Message.eol
  split
  · rfl
  · rfl

theorem blankLine_lines (m : Message) (lines : List Bytes) (hne : lines ≠ [])
    (h : ∀ l ∈ lines, l ≠ [] ∧ ∀ c ∈ l, inLine c) (rest : Bytes) :
    blankLine (lines.flatMap (· ++ m.eol) ++ (m.eol ++ rest)) =
      some (lines.flatMap (· ++ m.eol) ++ m.eol).length := by
  induction lines with
  | nil => exact absurd rfl hne
  | cons l lines ih =>
    obtain ⟨hl, hline⟩ := h l (List.mem_cons_self ..)
    rw [List.flatMap_cons, List.append_assoc, List.append_assoc, blankLine_line hline]
    cases lines with
    | nil =>
      rw [List.flatMap_nil, List.nil_append, blankLine_eol_eol]
      simp only [Option.map_some, List.append_nil, List.length_append]
      congr 1
      omega
    | cons l' lines =>
      have hrest := ih (by simp) fun k hk => h k (List.mem_cons_of_mem _ hk)
      obtain ⟨hl', hline'⟩ := h l' (by simp)
      obtain ⟨a, as, rfl⟩ := List.exists_cons_of_ne_nil hl'
      have ha : inLine a := hline' a (List.mem_cons_self ..)
      have hshape : ((a :: as) :: lines).flatMap (· ++ m.eol) ++ (m.eol ++ rest) =
          a :: (as ++ m.eol ++ lines.flatMap (· ++ m.eol) ++ (m.eol ++ rest)) := by
        simp
      rw [hshape] at hrest ⊢
      rw [blankLine_eol m ha, hrest]
      simp only [Option.map_some, List.length_append]
      congr 1
      omega

theorem blankLine_append {p : Bytes} {k : Nat} (h : blankLine p = some k) (t : Bytes) :
    blankLine (p ++ t) = some k ∧ k ≤ p.length := by
  induction p generalizing k with
  | nil => cases h
  | cons a p ih =>
    by_cases h₁ : a = 13 ∧ ∃ t, p = 10 :: 13 :: 10 :: t
    · obtain ⟨rfl, t', rfl⟩ := h₁
      cases h
      exact ⟨rfl, by simp⟩
    by_cases h₂ : a = 10 ∧ ∃ t, p = 10 :: t
    · obtain ⟨rfl, t', rfl⟩ := h₂
      cases h
      exact ⟨rfl, by simp⟩
    rw [blankLine_cons h₁ h₂] at h
    obtain ⟨j, hj, rfl⟩ := Option.map_eq_some_iff.mp h
    obtain ⟨hap, hle⟩ := ih hj
    refine ⟨?_, Nat.succ_le_succ hle⟩
    rw [List.cons_append, blankLine_cons, hap]
    · rfl
    · -- a mark that is cut off here leaves no room for another behind it
      rintro ⟨rfl, s, hs⟩
      rcases p with _ | ⟨x, _ | ⟨y, _ | ⟨z, p⟩⟩⟩
      · cases hj
      · simp only [List.cons_append, List.nil_append, List.cons.injEq] at hs
        obtain ⟨rfl, -⟩ := hs
        cases hj
      · simp only [List.cons_append, List.nil_append, List.cons.injEq] at hs
        obtain ⟨rfl, rfl, -⟩ := hs
        cases hj
      · simp only [List.cons_append, List.cons.injEq] at hs
        obtain ⟨rfl, rfl, rfl, -⟩ := hs
        exact h₁ ⟨rfl, _, rfl⟩
    · rintro ⟨rfl, s, hs⟩
      rcases p with _ | ⟨x, p⟩
      · cases hj
      · simp only [List.cons_append, List.cons.injEq] at hs
        obtain ⟨rfl, -⟩ := hs
        exact h₂ ⟨rfl, _, rfl⟩

/-! ## Reading a message back -/

def Message.ret (m : Message) : Bytes := if m.crlf then [cr] else []

theorem Message.eol_eq (m : Message) : m.eol = m.ret ++ [nl] := by
  unfold Message.eol Message.ret
  split <;> rfl

theorem Message.nl_not_mem_ret (m : Message) : nl ∉ m.ret := by
  unfold Message.ret
  split <;> decide

theorem chomp_line (m : Message) {line : Bytes} (h : ∀ c ∈ line, inLine c) :
    chomp (line ++ m.ret) = line := by
  unfold chomp Message.ret
  split
  · rw [if_pos (by simp), List.dropLast_concat]
  · rw [List.append_nil, if_neg]
    intro hlast
    exact (h cr (List.mem_of_getLast? hlast)).2 rfl

section Fields

variable {f : Field}

theorem Field.WellFormed.inLine (h : f.WellFormed) : ∀ c ∈ f.line, inLine c := by
  intro c hc
  rcases List.mem_append.mp hc with hc | hc
  · exact (h.name c hc).1
  rcases List.mem_cons.mp hc with rfl | hc
  · exact ⟨by decide, by decide⟩
  rcases List.mem_append.mp hc with hc | hc
  · rw [List.eq_of_mem_replicate hc]
    exact ⟨by decide, by decide⟩
  · exact (h.value c hc).1

theorem Field.line_ne_nil (f : Field) : f.line ≠ [] := by
  simp [Field.line]

theorem Field.WellFormed.headerLine (h : f.WellFormed) :
    headerLine f.line = some ⟨f.name, f.value⟩ := by
  have hcolon : (58 : UInt8) ∉ f.name := fun hc => (h.name 58 hc).2.2 rfl
  have hname : cstr f.name = f.name := cstr_eq_self fun c hc => (h.name c hc).2.1
  have hvalue : cstr f.value = f.value := cstr_eq_self fun c hc => (h.value c hc).2
  have hpad : (List.replicate f.pad space ++ f.value).dropWhile (· = space) = f.value := by
    rw [List.dropWhile_append_of_pos]
    · cases hv : f.value with
      | nil => rfl
      | cons a as =>
        rw [List.dropWhile_cons_of_neg]
        rw [decide_eq_true_eq]
        rintro rfl
        exact h.trimmed (by rw [hv]; rfl)
    · intro c hc
      rw [List.eq_of_mem_replicate hc]
      rfl
  unfold Http.headerLine Field.line
  rw [cut_append hcolon]
  simp only [Option.bind_eq_bind, Option.bind_some, if_pos h.shortName, hname, hpad,
    List.take_of_length_le h.shortValue, hvalue]
  rfl

end Fields

/-- The header lines are read up to the blank one. -/
theorem headerLines_fields (m : Message) {fields : List Field} (h : ∀ f ∈ fields, f.WellFormed)
    {acc : List Kv} (hroom : acc.length + fields.length ≤ maxReqHeaders) :
    headerLines ((fields.map Field.line ++ [[]]).map (· ++ m.ret)) acc =
      acc ++ fields.map fun f => ⟨f.name, f.value⟩ := by
  induction fields generalizing acc with
  | nil =>
    have hblank : chomp ([] ++ m.ret) = [] := chomp_line m (fun c hc => (nomatch hc))
    rw [List.map_nil, List.nil_append, List.map_singleton, headerLines, if_pos (.inr hblank)]
    simp
  | cons f fields ih =>
    have hf := h f (List.mem_cons_self ..)
    rw [List.length_cons] at hroom
    have hgo : ¬ (maxReqHeaders ≤ acc.length ∨ f.line = []) := by
      rintro (hfull | hnil)
      · omega
      · exact f.line_ne_nil hnil
    rw [List.map_cons, List.cons_append, List.map_cons, headerLines, chomp_line m hf.inLine,
      if_neg hgo, hf.headerLine, ih (fun g hg => h g (List.mem_cons_of_mem _ hg))]
    · simp
    · simp only [Option.toList_some, List.length_append, List.length_singleton]
      omega

section Message

variable {m : Message}

theorem Message.WellFormed.requestLine (h : m.WellFormed) : ∀ c ∈ m.requestLine, inLine c := by
  intro c hc
  rcases List.mem_append.mp hc with hc | hc
  · exact (h.method c hc).1
  rcases List.mem_cons.mp hc with rfl | hc
  · exact ⟨by decide, by decide⟩
  rcases List.mem_append.mp hc with hc | hc
  · exact (h.target.line c hc).1
  rcases List.mem_cons.mp hc with rfl | hc
  · exact ⟨by decide, by decide⟩
  · have hversion : ∀ c ∈ str (if m.http10 then "HTTP/1.0" else "HTTP/1.1"), inLine c := by
      cases m.http10 <;> decide +kernel
    exact hversion c hc

theorem Message.WellFormed.lines (h : m.WellFormed) :
    ∀ l ∈ m.lines, l ≠ [] ∧ ∀ c ∈ l, inLine c := by
  intro l hl
  rcases List.mem_cons.mp hl with rfl | hl
  · exact ⟨by simp [Message.requestLine], h.requestLine⟩
  · obtain ⟨f, hf, rfl⟩ := List.mem_map.mp hl
    exact ⟨f.line_ne_nil, (h.fields f hf).inLine⟩

theorem Message.WellFormed.blankLine (h : m.WellFormed) (rest : Bytes) :
    blankLine (m.head ++ rest) = some m.head.length := by
  unfold Message.head
  rw [List.append_assoc]
  exact blankLine_lines m m.lines (by simp [Message.lines]) h.lines rest

theorem Message.WellFormed.blankLine_none (h : m.WellFormed) {p t : Bytes} (hp : p ++ t = m.bytes)
    (hlen : p.length < m.head.length) : Http.blankLine p = none := by
  cases hk : Http.blankLine p with
  | none => rfl
  | some k =>
    obtain ⟨hfound, hle⟩ := blankLine_append hk t
    rw [hp, Message.bytes, h.blankLine] at hfound
    have := Option.some_inj.mp hfound
    omega

/-- **`parse_headers`** reads the message back. -/
theorem Message.WellFormed.parseHeaders (h : m.WellFormed) :
    parseHeaders m.head = some ⟨{ m.req with body := [] }, m.http10⟩ := by
  have hhead : m.head = (m.requestLine ++ m.ret) ++
      nl :: ((m.fields.map Field.line ++ [[]]).map (· ++ m.ret)).flatMap (· ++ [nl]) := by
    unfold Message.head Message.lines
    rw [m.eol_eq]
    simp [List.flatMap_map, List.append_assoc]
  have hline : nl ∉ m.requestLine ++ m.ret := by
    intro hmem
    rcases List.mem_append.mp hmem with hmem | hmem
    · exact (h.requestLine nl hmem).1 rfl
    · exact m.nl_not_mem_ret hmem
  have hlines : ∀ l ∈ (m.fields.map Field.line ++ [[]]).map (· ++ m.ret), nl ∉ l := by
    intro l hl hmem
    obtain ⟨k, hk, rfl⟩ := List.mem_map.mp hl
    rcases List.mem_append.mp hmem with hmem | hmem
    · rcases List.mem_append.mp hk with hk | hk
      · obtain ⟨f, hf, rfl⟩ := List.mem_map.mp hk
        exact ((h.fields f hf).inLine nl hmem).1 rfl
      · rw [List.mem_singleton.mp hk] at hmem
        cases hmem
    · exact m.nl_not_mem_ret hmem
  have hmethod : space ∉ m.method := fun hc => (h.method space hc).2.2 rfl
  have htarget : space ∉ m.target.written := fun hc => (h.target.line space hc).2 rfl
  have hversion : decide ((str (if m.http10 then "HTTP/1.0" else "HTTP/1.1")).take 8 =
      str "HTTP/1.0") = m.http10 := by
    cases m.http10 <;> decide
  unfold Http.parseHeaders
  rw [hhead, cut_append hline]
  simp only [Option.bind_eq_bind, Option.bind_some]
  rw [chomp_line m h.requestLine, Message.requestLine, cut_append hmethod]
  simp only [Option.bind_some, if_neg (Nat.not_le.mpr h.shortMethod)]
  rw [cut_append htarget]
  simp only [Option.bind_some, hversion]
  rw [Lib.Words.splitOn_terminated nl _ hlines, List.dropLast_concat,
    headerLines_fields m h.fields (by simpa using h.fewFields), List.nil_append,
    cstr_eq_self fun c hc => (h.method c hc).2.1, h.target.targetPath, h.target.targetQuery]
  rfl

theorem Message.WellFormed.bodyLength (h : m.WellFormed) :
    bodyLength m.headers = m.body.length := by
  have hlength := h.length
  unfold Http.bodyLength
  cases hv : findHeader m.headers (str "Content-Length") with
  | none =>
    rw [hv] at hlength
    rw [show m.body = [] from hlength]
    rfl
  | some v =>
    rw [hv] at hlength
    obtain ⟨hne, hdigits, hdecimal⟩ := hlength
    have hbody := h.shortBody
    dsimp only
    rw [Libc.strtoul_of_digits hne hdigits, hdecimal, if_neg]
    unfold maxBodyBytes at hbody
    omega

end Message

end MagiTrickle.Http
