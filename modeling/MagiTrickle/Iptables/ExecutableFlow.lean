import MagiTrickle.Iptables.Executable

/-!
# The bytes in the pipes

What the process reads is the script and what the daemon reads is what the
process wrote, in order and each byte once; what the daemon keeps is as much of
it as fits. `Flow` says so of a state, and every call of the daemon keeps it.
-/

namespace MagiTrickle.Iptables

open Platform (ByteBuf)

namespace Output

/-- What was read and what is in the pipe is what was written. -/
def Ok (o : Output) : Prop := o.got ++ o.pipe.bytes = o.written

def Ended (o : Output) : Prop := o.pipe.bytes = [] ∧ o.pipe.writer = false

variable {o : Output}

theorem ok_write {cap : Nat} {bs : Bytes} (h : o.Ok) : (o.write cap bs).Ok := by
  unfold write
  split
  · show o.got ++ (o.pipe.bytes ++ bs) = o.written ++ bs
    rw [← List.append_assoc, h]
  · exact h

theorem ended_write {cap : Nat} {bs : Bytes} (h : o.Ended) : (o.write cap bs).Ended := by
  unfold write
  rw [h.2]
  exact h

theorem ok_read {size n : Nat} (h : o.Ok) : (o.read size n).1.Ok := by
  unfold read
  split
  · split <;> exact h
  · show o.got ++ o.pipe.bytes.take _ ++ o.pipe.bytes.drop _ = o.written
    rw [List.append_assoc, List.take_append_drop, h]

theorem got_read {size n : Nat} : (o.read size n).1.got = o.got ++ (o.read size n).2 := by
  unfold read
  split
  · split <;> exact (List.append_nil _).symm
  · rfl

theorem pipe_read {size n : Nat} :
    (o.read size n).1.pipe.reader = o.pipe.reader ∧
      (o.read size n).1.pipe.writer = o.pipe.writer ∧ (o.read size n).1.written = o.written := by
  unfold read
  split
  · split <;> exact ⟨rfl, rfl, rfl⟩
  · exact ⟨rfl, rfl, rfl⟩

theorem ended_read {size n : Nat} (h : o.eof = true → o.Ended)
    (heof : (o.read size n).1.eof = true) : (o.read size n).1.Ended := by
  unfold read at heof ⊢
  split at heof
  · next hnil =>
    rw [if_pos hnil]
    split at heof
    · next hwriter =>
      rw [if_pos hwriter]
      exact h heof
    · next hwriter =>
      rw [if_neg hwriter]
      exact ⟨hnil, Bool.eq_false_iff.mpr hwriter⟩
  · next hbytes => exact absurd (h heof).1 hbytes

theorem writer_write {cap : Nat} {bs : Bytes} :
    (o.write cap bs).pipe.writer = o.pipe.writer ∧ (o.write cap bs).pipe.reader = o.pipe.reader ∧
      (o.write cap bs).eof = o.eof ∧ (o.write cap bs).got = o.got := by
  unfold write
  split <;> exact ⟨rfl, rfl, rfl, rfl⟩

end Output
namespace Exec

/-! ## Data -/

/-- What holds of the bytes wherever the daemon stands. -/
structure Flow (s : Exec) : Prop where
  script : s.taken ++ s.stdin.bytes = s.job.script.take s.written
  le : s.written ≤ s.job.script.length
  out : s.stdout.Ok
  err : s.stderr.Ok
  kept : s.outBuf.data <+: s.stdout.got
  all : s.job.capture = true → s.limited = false → s.outBuf.data = s.stdout.got
  errKept : s.errBuf.data.Sublist s.stderr.got
  errAll : s.stderr.got.length ≤ stderrCap → s.errBuf.data = s.stderr.got
  errCap : s.errBuf.maxCap = stderrCap
  /-- A process that is gone has no ends left. -/
  gone : s.exited.isSome = true →
    s.stdin.reader = false ∧ s.stdout.pipe.writer = false ∧ s.stderr.pipe.writer = false
  /-- The script was cut short only where nobody reads it any more or the daemon gives up. -/
  whole : s.stdin.writer = false → s.written = s.job.script.length ∨ s.stdin.reader = false ∨
    s.err.isSome = true ∨ s.canceled = true

variable {s : Exec}

theorem Flow.loc (h : s.Flow) (l : At) : Flow { s with loc := l } := { h with }

theorem Flow.leave (h : s.Flow)
    (hdone : s.stdin.writer = true → s.err.isSome = true ∨ s.canceled = true) :
    s.leave.Flow :=
  { script := h.script
    le := h.le
    out := h.out
    err := h.err
    kept := h.kept
    all := h.all
    errKept := h.errKept
    errAll := h.errAll
    errCap := h.errCap
    gone := h.gone
    whole := fun _ => by
      cases hw : s.stdin.writer with
      | false => exact h.whole hw
      | true => exact .inr (.inr (hdone hw)) }

theorem Flow.fail (h : s.Flow) (e : Err) : (s.fail e).Flow := by
  refine Flow.leave (s := { s with err := some e }) ?_ fun _ => .inl rfl
  exact { h with whole := fun _ => .inr (.inr (.inl rfl)) }

theorem flow_start (host : Host) (job : Job) (nonblock : Option Err) :
    (start host job nonblock).Flow := by
  have h : (start host job none).Flow :=
    { script := rfl
      le := Nat.zero_le _
      out := rfl
      err := rfl
      kept := List.prefix_rfl
      all := fun _ _ => rfl
      errKept := List.Sublist.refl _
      errAll := fun _ => rfl
      errCap := rfl
      gone := fun h => by cases h
      whole := fun hw => .inl (by
        have hnil : job.script = [] := by simpa [start] using hw
        show 0 = job.script.length
        rw [hnil]
        rfl) }
  cases nonblock with
  | none => exact h
  | some e => exact h.fail e

theorem Flow.closeStdin (h : s.Flow)
    (hdone : s.written = s.job.script.length ∨ s.stdin.reader = false) : s.closeStdin.Flow :=
  { h with whole := fun _ => hdone.imp_right .inl }

theorem Flow.wrote (h : s.Flow) {k : Nat} (hk : k ≤ s.job.script.length - s.written) :
    (s.wrote k).Flow := by
  have hnew : Flow { s with
      stdin := { s.stdin with bytes := s.stdin.bytes ++ (s.job.script.drop s.written).take k }
      written := s.written + k } :=
    { h with
      script := by
        show s.taken ++ (s.stdin.bytes ++ (s.job.script.drop s.written).take k) = _
        rw [← List.append_assoc, h.script, List.take_add]
      le := by
        have hle := h.le
        show s.written + k ≤ s.job.script.length
        omega
      whole := fun hw => by
        have hle := h.le
        rcases h.whole hw with heq | hrest
        · exact .inl (by show s.written + k = s.job.script.length; omega)
        · exact .inr hrest }
  unfold Exec.wrote
  dsimp only
  split
  · next hlen => exact hnew.closeStdin (.inl hlen)
  · exact hnew

theorem Flow.stdinStep (h : s.Flow) {pollout out err : Bool} {a : Answer}
    (hpollout : pollout = false → s.stdin.reader = false) :
    (s.stdinStep pollout out err a).Flow := by
  unfold Exec.stdinStep
  split
  · next hno => exact (h.closeStdin (.inr (hpollout (by simpa using hno)))).loc _
  · split
    · next hreader =>
      have hreader : s.stdin.reader = false := by simpa using hreader
      split
      · exact (h.closeStdin (.inr hreader)).loc _
      · exact h.loc _
    · split
      · exact h.fail _
      · exact h.loc _
      · refine (h.wrote ?_).loc _
        unfold Exec.writeSize
        omega

/-- What `keep` makes of bytes that have just been read. -/
theorem Flow.keep {bs : Bytes} (h : s.Flow) {o : Output} (ho : o.Ok)
    (hgot : o.got = s.stdout.got ++ bs)
    (hwriter : o.pipe.writer = s.stdout.pipe.writer) :
    (Exec.keep { s with stdout := o } bs).Flow := by
  have hpre : s.outBuf.data <+: o.got := h.kept.trans (hgot ▸ List.prefix_append _ _)
  have hgone : s.exited.isSome = true →
      s.stdin.reader = false ∧ o.pipe.writer = false ∧ s.stderr.pipe.writer = false := by
    intro hx
    rw [hwriter]
    exact h.gone hx
  unfold Exec.keep
  dsimp only
  split
  · next hcap =>
    obtain ⟨hcapture, hlimited⟩ : s.job.capture = true ∧ s.limited = false := by
      simpa using hcap
    have hall : s.outBuf.data = s.stdout.got := h.all hcapture hlimited
    rcases s.outBuf.append_spec bs with ⟨happ, -⟩ | ⟨b, happ, hdata, -, -⟩
    · rw [happ]
      exact { h with out := ho, kept := hpre, gone := hgone, all := fun _ hl => by cases hl }
    · rw [happ]
      have heq : b.data = o.got := by rw [hdata, hall, hgot]
      exact { h with
        out := ho
        kept := heq ▸ List.prefix_rfl
        gone := hgone
        all := fun _ _ => heq }
  · next hcap =>
    refine { h with out := ho, kept := hpre, gone := hgone, all := fun hc hl => ?_ }
    have hc : s.job.capture = true := hc
    have hl : s.limited = false := hl
    exact absurd (by simp [hc, hl]) hcap

theorem Flow.stdoutStep (h : s.Flow) {err : Bool} {a : Answer} : (s.stdoutStep err a).Flow := by
  cases a with
  | fail e => exact h.fail e
  | again => exact h.loc _
  | count n =>
    exact (Flow.keep h (Output.ok_read h.out) Output.got_read Output.pipe_read.2.1).loc _

theorem Flow.stderrStep (h : s.Flow) {a : Answer} : (s.stderrStep a).Flow := by
  cases a with
  | fail e => exact h.fail e
  | again => exact h.loc _
  | count n =>
    have hgot : (s.stderr.read 1024 n).1.got = s.stderr.got ++ (s.stderr.read 1024 n).2 :=
      Output.got_read
    have hcommon (b : ByteBuf) (hb : b.data.Sublist (s.stderr.read 1024 n).1.got)
        (hall : (s.stderr.read 1024 n).1.got.length ≤ stderrCap →
          b.data = (s.stderr.read 1024 n).1.got) (hmax : b.maxCap = stderrCap) :
        Flow { s with stderr := (s.stderr.read 1024 n).1, errBuf := b, loc := .poll } :=
      { h with
        err := Output.ok_read h.err
        errKept := hb
        errAll := hall
        errCap := hmax
        gone := fun hx => ⟨(h.gone hx).1, (h.gone hx).2.1,
          Output.pipe_read.2.1.trans (h.gone hx).2.2⟩ }
    unfold Exec.stderrStep
    dsimp only
    rcases s.errBuf.append_spec (s.stderr.read 1024 n).2 with
      ⟨happ, hlen⟩ | ⟨b, happ, hdata, hmax, -⟩
    · rw [happ]
      refine hcommon s.errBuf ?_ (fun hle => ?_) h.errCap
      · rw [hgot]
        exact h.errKept.trans (List.sublist_append_left _ _)
      · rw [hgot, List.length_append] at hle
        have hdata := h.errAll (by omega)
        rw [h.errCap, hdata] at hlen
        omega
    · rw [happ]
      refine hcommon b ?_ (fun hle => ?_) (hmax.trans h.errCap)
      · rw [hgot, hdata]
        exact h.errKept.append (List.Sublist.refl _)
      · rw [hgot, List.length_append] at hle
        rw [hgot, hdata, h.errAll (by omega)]

end Exec

end MagiTrickle.Iptables
