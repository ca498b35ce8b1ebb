import MagiTrickle.Iptables.ExecutableFlow

/-!
# What the poll loop guarantees

In every order of the steps of the daemon, the process and the thread that
cancels: neither side waits for the other for ever, and success means that the
process ended well and that all it wrote was read (`executable_run`). `Placed`
is the invariant of the descriptors, by where the daemon stands.
-/

namespace MagiTrickle.Iptables

open Platform (ByteBuf)

namespace Exec

variable {s : Exec}

/-! ## Where the daemon stands -/

/-- The descriptors in the loop. -/
structure Serving (s : Exec) : Prop where
  ok : s.err = none
  wanted : s.canceled = false
  stdin : s.stdin.writer = !s.stdinDone
  out : s.stdout.pipe.reader = true
  err : s.stderr.pipe.reader = true
  outEnd : s.stdout.eof = true → s.stdout.Ended
  errEnd : s.stderr.eof = true → s.stderr.Ended
  left : s.stdinDone = false → s.written < s.job.script.length

/-- The descriptors behind the loop. -/
structure Closed (s : Exec) : Prop where
  stdin : s.stdin.writer = false
  out : s.stdout.pipe.reader = false
  err : s.stderr.pipe.reader = false

/-- What is returned without an error. -/
structure Success (s : Exec) : Prop where
  ok : s.err = none
  status : s.exited = some 0
  out : s.stdout.Ended
  err : s.stderr.Ended
  unlimited : s.job.capture = true → s.limited = false

def Placed (s : Exec) : Prop :=
  match s.loc with
  | .poll => s.Serving
  | .stdin pollout out err => s.Serving ∧ s.stdinDone = false ∧
      (pollout = false → s.stdin.reader = false) ∧ (out = true → s.stdout.eof = false) ∧
      (err = true → s.stderr.eof = false)
  | .stdout err => s.Serving ∧ s.stdout.eof = false ∧ (err = true → s.stderr.eof = false)
  | .stderr => s.Serving ∧ s.stderr.eof = false
  | .kill => s.Closed ∧ s.canceled = true
  | .wait => s.Closed ∧ s.canceled = false ∧ (s.err = none → s.stdout.Ended ∧ s.stderr.Ended)
  | .returned e => s.Closed ∧
      (s.canceled = true ∧ e = some .canceled ∧ s.exited.isSome = true ∨
        s.canceled = false ∧ (e = none → s.Success))
  | .dead => s.host.ignore = false ∧ s.job.script ≠ [] ∧ s.stdin.reader = false ∧
      s.canceled = false

/-- What the steps of the process and of the token leave as it is. -/
structure Others (s s' : Exec) : Prop where
  host : s'.host = s.host
  job : s'.job = s.job
  loc : s'.loc = s.loc
  written : s'.written = s.written
  stdinDone : s'.stdinDone = s.stdinDone
  limited : s'.limited = s.limited
  err : s'.err = s.err
  canceled : s'.canceled = s.canceled
  writer : s'.stdin.writer = s.stdin.writer
  reader : s.stdin.reader = false → s'.stdin.reader = false
  outReader : s'.stdout.pipe.reader = s.stdout.pipe.reader
  errReader : s'.stderr.pipe.reader = s.stderr.pipe.reader
  outEof : s'.stdout.eof = s.stdout.eof
  errEof : s'.stderr.eof = s.stderr.eof
  outEnded : s.stdout.Ended → s'.stdout.Ended
  errEnded : s.stderr.Ended → s'.stderr.Ended
  exited : s.exited.isSome = true → s'.exited = s.exited

theorem Others.refl (s : Exec) : s.Others s :=
  ⟨rfl, rfl, rfl, rfl, rfl, rfl, rfl, rfl, rfl, id, rfl, rfl, rfl, rfl, id, id, fun _ => rfl⟩

theorem others_step (s : Exec) {st : Step} (hst : ∀ a, st ≠ .daemon a) :
    s.Others (s.step st) := by
  have h := Others.refl s
  cases st with
  | daemon a => exact absurd rfl (hst a)
  | read n =>
    show s.Others (s.readStdin n)
    unfold readStdin
    split
    · exact { h with }
    · exact h
  | writeOut bs =>
    obtain ⟨-, hreader, heof, -⟩ := @Output.writer_write s.stdout s.host.cap bs
    exact { h with outReader := hreader, outEof := heof, outEnded := Output.ended_write }
  | writeErr bs =>
    obtain ⟨-, hreader, heof, -⟩ := @Output.writer_write s.stderr s.host.cap bs
    exact { h with errReader := hreader, errEof := heof, errEnded := Output.ended_write }
  | closeIn => exact { h with reader := fun _ => rfl }
  | closeOut => exact { h with outEnded := fun he => ⟨he.1, rfl⟩ }
  | closeErr => exact { h with errEnded := fun he => ⟨he.1, rfl⟩ }
  | exit status =>
    show s.Others (s.exit status)
    unfold Exec.exit
    split
    · exact h
    · next hnone =>
      exact { h with
        reader := fun _ => rfl
        outEnded := fun he => ⟨he.1, rfl⟩
        errEnded := fun he => ⟨he.1, rfl⟩
        exited := fun hx => by rw [hnone] at hx; cases hx }
  | token raised => exact { h with }

theorem Serving.others {s' : Exec} (h : s.Serving) (ho : s.Others s') : s'.Serving where
  ok := ho.err.trans h.ok
  wanted := ho.canceled.trans h.wanted
  stdin := by rw [ho.writer, ho.stdinDone, h.stdin]
  out := ho.outReader.trans h.out
  err := ho.errReader.trans h.err
  outEnd := fun he => ho.outEnded (h.outEnd (ho.outEof.symm.trans he))
  errEnd := fun he => ho.errEnded (h.errEnd (ho.errEof.symm.trans he))
  left := fun hd => by
    rw [ho.written, ho.job]
    exact h.left (ho.stdinDone.symm.trans hd)

theorem Closed.others {s' : Exec} (h : s.Closed) (ho : s.Others s') : s'.Closed :=
  ⟨ho.writer.trans h.stdin, ho.outReader.trans h.out, ho.errReader.trans h.err⟩

theorem Success.others {s' : Exec} (h : s.Success) (ho : s.Others s') : s'.Success where
  ok := ho.err.trans h.ok
  status := (ho.exited (by rw [h.status]; rfl)).trans h.status
  out := ho.outEnded h.out
  err := ho.errEnded h.err
  unlimited := fun hc => ho.limited.trans (h.unlimited (by rw [← ho.job]; exact hc))

theorem Placed.others {s' : Exec} (h : s.Placed) (ho : s.Others s') : s'.Placed := by
  unfold Placed at h ⊢
  rw [ho.loc]
  cases hloc : s.loc with
  | poll =>
    rw [hloc] at h
    exact Serving.others h ho
  | stdin pollout out err =>
    rw [hloc] at h
    obtain ⟨hs, hdone, hpoll, hout, herr⟩ := h
    exact ⟨hs.others ho, ho.stdinDone.trans hdone, fun hp => ho.reader (hpoll hp),
      fun hx => ho.outEof.trans (hout hx), fun hx => ho.errEof.trans (herr hx)⟩
  | stdout err =>
    rw [hloc] at h
    obtain ⟨hs, hout, herr⟩ := h
    exact ⟨hs.others ho, ho.outEof.trans hout, fun hx => ho.errEof.trans (herr hx)⟩
  | stderr =>
    rw [hloc] at h
    exact ⟨h.1.others ho, ho.errEof.trans h.2⟩
  | kill =>
    rw [hloc] at h
    exact ⟨h.1.others ho, ho.canceled.trans h.2⟩
  | wait =>
    rw [hloc] at h
    obtain ⟨hc, hwanted, hend⟩ := h
    refine ⟨hc.others ho, ho.canceled.trans hwanted, fun he => ?_⟩
    exact (hend (ho.err.symm.trans he)).imp ho.outEnded ho.errEnded
  | returned e =>
    rw [hloc] at h
    refine ⟨h.1.others ho, h.2.imp ?_ ?_⟩
    · rintro ⟨hcanceled, he, hx⟩
      exact ⟨ho.canceled.trans hcanceled, he, by rw [ho.exited hx]; exact hx⟩
    · rintro ⟨hcanceled, he⟩
      exact ⟨ho.canceled.trans hcanceled, fun hnone => (he hnone).others ho⟩
  | dead =>
    rw [hloc] at h
    rw [ho.host, ho.job]
    exact ⟨h.1, h.2.1, ho.reader h.2.2.1, ho.canceled.trans h.2.2.2⟩

theorem closed_leave (s : Exec) : s.leave.Closed := ⟨rfl, rfl, rfl⟩

theorem placed_leave (hend : s.canceled = false → s.err = none →
    s.stdout.Ended ∧ s.stderr.Ended) : s.leave.Placed := by
  unfold Placed
  cases hc : s.canceled with
  | true =>
    have hloc : s.leave.loc = .kill := if_pos hc
    rw [hloc]
    exact ⟨closed_leave s, hc⟩
  | false =>
    have hloc : s.leave.loc = .wait := if_neg (by rw [hc]; decide)
    rw [hloc]
    exact ⟨closed_leave s, hc, hend hc⟩

theorem placed_fail (s : Exec) (e : Err) : (s.fail e).Placed :=
  placed_leave fun _ he => by cases he

theorem Serving.loc (h : s.Serving) (l : At) : Serving { s with loc := l } := { h with }

theorem Serving.next (h : s.Serving) {out err : Bool} (hout : out = true → s.stdout.eof = false)
    (herr : err = true → s.stderr.eof = false) : Placed { s with loc := next out err } := by
  cases out with
  | true => exact ⟨h.loc _, hout rfl, herr⟩
  | false =>
    cases err with
    | true => exact ⟨h.loc _, herr rfl⟩
    | false => exact h.loc _

theorem Serving.closeStdin (h : s.Serving) : s.closeStdin.Serving :=
  { h with stdin := rfl, left := fun hd => by cases hd }

theorem Serving.wrote (h : s.Serving) (hflow : s.Flow) {k : Nat}
    (hk : k ≤ s.job.script.length - s.written) : (s.wrote k).Serving := by
  unfold Exec.wrote
  dsimp only
  split
  · exact { h with stdin := rfl, left := fun hd => by cases hd }
  · next hlen =>
    have hle := hflow.le
    have hlt : s.written + k < s.job.script.length := by
      have hne : s.written + k ≠ s.job.script.length := hlen
      omega
    exact { h with left := fun _ => hlt }

theorem Serving.stdout (h : s.Serving) {o : Output} (hreader : o.pipe.reader = true)
    (hend : o.eof = true → o.Ended) : Serving { s with stdout := o } :=
  { h with out := hreader, outEnd := hend }

/-- `keep` changes nothing but the buffer. -/
theorem keep_eq (s : Exec) (bs : Bytes) :
    ∃ b l, s.keep bs = { s with outBuf := b, limited := l } := by
  unfold Exec.keep
  split
  · split
    · exact ⟨_, _, rfl⟩
    · exact ⟨_, _, rfl⟩
  · exact ⟨_, _, rfl⟩

theorem placed_pollStep (h : s.Serving) (hloc : s.loc = .poll) (a : Answer) :
    (s.pollStep a).Placed := by
  have hsame : s.Placed := by
    unfold Placed
    rw [hloc]
    exact h
  unfold pollStep
  split
  · next hserved =>
    obtain ⟨⟨-, hout⟩, herr⟩ :
        (s.stdinDone = true ∧ s.stdout.eof = true) ∧ s.stderr.eof = true := by
      simpa [served] using hserved
    exact placed_leave fun _ _ => ⟨h.outEnd hout, h.errEnd herr⟩
  · cases a with
    | fail e => exact placed_fail s e
    | again => exact hsame
    | count n =>
      have hout : s.outReady = true → s.stdout.eof = false := by
        intro hr
        simpa using (Bool.and_eq_true_iff.mp hr).1
      have herr : s.errReady = true → s.stderr.eof = false := by
        intro hr
        simpa using (Bool.and_eq_true_iff.mp hr).1
      dsimp only
      split
      · exact hsame
      · split
        · exact placed_leave fun hc => by cases hc
        · split
          · next hin =>
            obtain ⟨hdone, hwritable⟩ : s.stdinDone = false ∧
                s.stdin.writable s.host.cap = true := by simpa [inReady] using hin
            refine ⟨h.loc _, hdone, fun hfull => ?_, hout, herr⟩
            have hfull : decide (s.stdin.bytes.length < s.host.cap) = false := hfull
            unfold Pipe.writable at hwritable
            rw [hfull, Bool.false_or] at hwritable
            simpa using hwritable
          · exact h.next hout herr

theorem placed_stdinStep (h : s.Serving) (hflow : s.Flow) (hdone : s.stdinDone = false)
    {pollout out err : Bool} (hout : out = true → s.stdout.eof = false)
    (herr : err = true → s.stderr.eof = false) (a : Answer) :
    (s.stdinStep pollout out err a).Placed := by
  unfold Exec.stdinStep
  split
  · exact h.closeStdin.next hout herr
  · split
    · next hreader =>
      split
      · exact h.closeStdin.next hout herr
      · next hignore =>
        refine ⟨by simpa using hignore, ?_, by simpa using hreader, h.wanted⟩
        have hleft := h.left hdone
        intro hnil
        have hnil : s.job.script = [] := hnil
        rw [hnil] at hleft
        cases hleft
    · cases a with
      | fail e => exact placed_fail s e
      | again => exact h.next hout herr
      | count n =>
        have hk : s.writeSize n ≤ s.job.script.length - s.written := by
          unfold Exec.writeSize
          omega
        have hrest : (s.wrote (s.writeSize n)).stdout = s.stdout ∧
            (s.wrote (s.writeSize n)).stderr = s.stderr := by
          unfold Exec.wrote
          dsimp only
          split <;> exact ⟨rfl, rfl⟩
        refine (h.wrote hflow hk).next ?_ ?_
        · rw [hrest.1]
          exact hout
        · rw [hrest.2]
          exact herr

theorem placed_stdoutStep (h : s.Serving) {err : Bool} (herr : err = true → s.stderr.eof = false)
    (a : Answer) : (s.stdoutStep err a).Placed := by
  cases a with
  | fail e => exact placed_fail s e
  | again => exact h.next (fun hf => by cases hf) herr
  | count n =>
    obtain ⟨b, l, heq⟩ := keep_eq { s with stdout := (s.stdout.read s.job.chunk n).1 }
      (s.stdout.read s.job.chunk n).2
    have hread := h.stdout (Output.pipe_read.1.trans h.out)
      (@Output.ended_read s.stdout s.job.chunk n h.outEnd)
    have hnew : Serving { s with
        stdout := (s.stdout.read s.job.chunk n).1, outBuf := b, limited := l } := { hread with }
    unfold Exec.stdoutStep
    dsimp only
    rw [heq]
    exact hnew.next (fun hf => by cases hf) herr

theorem placed_stderrStep (h : s.Serving) (a : Answer) : (s.stderrStep a).Placed := by
  cases a with
  | fail e => exact placed_fail s e
  | again => exact h.loc _
  | count n =>
    exact { h with
      err := Output.pipe_read.1.trans h.err
      errEnd := Output.ended_read h.errEnd }

theorem waitChild_none {status : Nat} (h : s.waitChild status = none) : status = 0 := by
  unfold waitChild at h
  split at h
  · assumption
  · split at h <;> cases h

theorem result_none {e : Option Err} (h : s.result e = none) :
    s.err = none ∧ e = none ∧ (s.job.capture = true → s.limited = false) := by
  unfold result at h
  split at h
  · cases h
  · split at h
    · cases h
    · next herr _ =>
      split at h
      · cases h
      · next hlimit =>
        refine ⟨herr, rfl, fun hc => ?_⟩
        rw [hc, Bool.true_and] at hlimit
        exact Bool.eq_false_iff.mpr hlimit

theorem placed_daemon (hflow : s.Flow) (h : s.Placed) (a : Answer) : (s.daemon a).Placed := by
  have hp := h
  unfold Placed at h
  unfold Exec.daemon
  cases hloc : s.loc with
  | poll =>
    rw [hloc] at h
    exact placed_pollStep h hloc a
  | stdin pollout out err =>
    rw [hloc] at h
    exact placed_stdinStep h.1 hflow h.2.1 h.2.2.2.1 h.2.2.2.2 a
  | stdout err =>
    rw [hloc] at h
    exact placed_stdoutStep h.1 h.2.2 a
  | stderr =>
    rw [hloc] at h
    exact placed_stderrStep h.1 a
  | kill =>
    rw [hloc] at h
    have hexit : s.Others (s.step (.exit sigkill)) := others_step s fun a hst => by cases hst
    have hgone : (s.step (.exit sigkill)).exited.isSome = true := by
      show (s.exit sigkill).exited.isSome = true
      unfold Exec.exit
      split
      · next hx => rw [hx]; rfl
      · rfl
    exact ⟨{ h.1.others hexit with }, .inl ⟨hexit.canceled.trans h.2, rfl, hgone⟩⟩
  | wait =>
    rw [hloc] at h
    obtain ⟨hclosed, hwanted, hend⟩ := h
    cases a with
    | again => exact hp
    | fail e =>
      refine ⟨{ hclosed with }, .inr ⟨hwanted, fun hnone => ?_⟩⟩
      cases (result_none hnone).2.1
    | count n =>
      dsimp only
      unfold Exec.waitStep
      dsimp only
      rcases Option.eq_none_or_eq_some s.exited with hx | ⟨status, hx⟩
      · rw [hx]
        exact hp
      · rw [hx]
        refine ⟨{ hclosed with }, .inr ⟨hwanted, fun hnone => ?_⟩⟩
        obtain ⟨herr, hstatus, hlimit⟩ := result_none hnone
        have hzero := waitChild_none hstatus
        subst hzero
        exact ⟨herr, rfl, (hend herr).1, (hend herr).2, hlimit⟩
  | returned e => exact hp
  | dead => exact hp

/-! ## Runs -/

theorem Flow.exit (h : s.Flow) (status : Nat) : (s.exit status).Flow := by
  unfold Exec.exit
  split
  · exact h
  · exact { h with
      gone := fun _ => ⟨rfl, rfl, rfl⟩
      whole := fun hw => (h.whole hw).imp_right fun hr => hr.imp_left fun _ => rfl }

theorem Flow.pollStep (h : s.Flow) (hserving : s.Serving) (a : Answer) : (s.pollStep a).Flow := by
  unfold Exec.pollStep
  split
  · next hserved =>
    have hdone : s.stdinDone = true :=
      (Bool.and_eq_true_iff.mp (Bool.and_eq_true_iff.mp hserved).1).1
    refine h.leave fun hw => ?_
    rw [hserving.stdin, hdone] at hw
    cases hw
  · cases a with
    | fail e => exact h.fail e
    | again => exact h
    | count n =>
      dsimp only
      split
      · exact h
      · split
        · refine Flow.leave (s := { s with canceled := true }) ?_ fun _ => .inr rfl
          exact { h with whole := fun _ => .inr (.inr (.inr rfl)) }
        · split <;> exact h.loc _

theorem Flow.daemon (h : s.Flow) (hp : s.Placed) (a : Answer) : (s.daemon a).Flow := by
  unfold Placed at hp
  unfold Exec.daemon
  cases hloc : s.loc with
  | poll =>
    rw [hloc] at hp
    exact h.pollStep hp a
  | stdin pollout out err =>
    rw [hloc] at hp
    exact h.stdinStep hp.2.2.1
  | stdout err => exact h.stdoutStep
  | stderr => exact h.stderrStep
  | kill => exact (h.exit sigkill).loc _
  | wait =>
    dsimp only
    unfold Exec.waitStep
    cases a with
    | again => exact h
    | fail e => exact h.loc _
    | count n =>
      dsimp only
      split
      · exact h
      · exact h.loc _
  | returned e => exact h
  | dead => exact h

theorem Flow.step (h : s.Flow) (hp : s.Placed) (st : Step) : (s.step st).Flow := by
  cases st with
  | daemon a => exact h.daemon hp a
  | read n =>
    show (s.readStdin n).Flow
    unfold readStdin
    split
    · refine { h with script := ?_ }
      show s.taken ++ s.stdin.bytes.take n ++ s.stdin.bytes.drop n = _
      rw [List.append_assoc, List.take_append_drop, h.script]
    · exact h
  | writeOut bs =>
    obtain ⟨hwriter, -, -, hgot⟩ := @Output.writer_write s.stdout s.host.cap bs
    refine { h with out := Output.ok_write h.out, kept := ?_, all := ?_, gone := ?_ }
    · show s.outBuf.data <+: (s.stdout.write s.host.cap bs).got
      rw [hgot]
      exact h.kept
    · exact fun hc hl => (h.all hc hl).trans hgot.symm
    · exact fun hx => ⟨(h.gone hx).1, hwriter.trans (h.gone hx).2.1, (h.gone hx).2.2⟩
  | writeErr bs =>
    obtain ⟨hwriter, -, -, hgot⟩ := @Output.writer_write s.stderr s.host.cap bs
    refine { h with err := Output.ok_write h.err, errKept := ?_, errAll := ?_, gone := ?_ }
    · show s.errBuf.data.Sublist (s.stderr.write s.host.cap bs).got
      rw [hgot]
      exact h.errKept
    · intro hlen
      have hlen : (s.stderr.write s.host.cap bs).got.length ≤ stderrCap := hlen
      rw [hgot] at hlen
      exact (h.errAll hlen).trans hgot.symm
    · exact fun hx => ⟨(h.gone hx).1, (h.gone hx).2.1, hwriter.trans (h.gone hx).2.2⟩
  | closeIn => exact { h with
      gone := fun hx => ⟨rfl, (h.gone hx).2⟩
      whole := fun hw => (h.whole hw).imp_right fun hr => hr.imp_left fun _ => rfl }
  | closeOut => exact { h with gone := fun hx => ⟨(h.gone hx).1, rfl, (h.gone hx).2.2⟩ }
  | closeErr => exact { h with gone := fun hx => ⟨(h.gone hx).1, (h.gone hx).2.1, rfl⟩ }
  | exit status => exact h.exit status
  | token raised => exact { h with }

theorem Placed.step (hflow : s.Flow) (h : s.Placed) (st : Step) : (s.step st).Placed := by
  cases st with
  | daemon a => exact placed_daemon hflow h a
  | _ => exact h.others (others_step s fun a hst => by cases hst)

theorem placed_start (host : Host) (job : Job) (nonblock : Option Err) :
    (start host job nonblock).Placed := by
  cases nonblock with
  | some e => exact placed_fail _ e
  | none =>
    refine Serving.mk rfl rfl ?_ rfl rfl (fun he => by cases he) (fun he => by cases he) ?_
    · show decide (job.script ≠ []) = !decide (job.script = [])
      rw [decide_not]
    · intro hd
      have hne : job.script ≠ [] := by simpa [start] using hd
      exact List.length_pos_iff.mpr hne

/-- The invariants hold in every state of a run. -/
theorem inv_run (host : Host) (job : Job) (nonblock : Option Err) (steps : List Step) :
    (run host job nonblock steps).Flow ∧ (run host job nonblock steps).Placed := by
  unfold run
  induction steps using List.reverseRecOn with
  | nil => exact ⟨flow_start host job nonblock, placed_start host job nonblock⟩
  | append_singleton steps st ih =>
    rw [List.foldl_append]
    exact ⟨ih.1.step ih.2 st, Placed.step ih.1 ih.2 st⟩

/-- What a call of the daemon leaves as it is. -/
theorem daemon_fixed (s : Exec) (a : Answer) :
    (s.daemon a).host = s.host ∧ (s.daemon a).job = s.job ∧
      (s.exited.isSome = true → (s.daemon a).exited.isSome = true) := by
  have hself : s.host = s.host ∧ s.job = s.job ∧
      (s.exited.isSome = true → s.exited.isSome = true) := ⟨rfl, rfl, id⟩
  have hwrote (k : Nat) : (s.wrote k).host = s.host ∧ (s.wrote k).job = s.job ∧
      (s.exited.isSome = true → (s.wrote k).exited.isSome = true) := by
    unfold Exec.wrote
    dsimp only
    split <;> exact hself
  unfold Exec.daemon
  split
  · unfold Exec.pollStep
    split
    · exact hself
    · split
      · exact hself
      · exact hself
      · split
        · exact hself
        · split
          · exact hself
          · split <;> exact hself
  · unfold Exec.stdinStep
    split
    · exact hself
    · split
      · split <;> exact hself
      · split
        · exact hself
        · exact hself
        · exact hwrote _
  · unfold Exec.stdoutStep
    split
    · exact hself
    · exact hself
    · next err n =>
      obtain ⟨b, l, heq⟩ := keep_eq { s with stdout := (s.stdout.read s.job.chunk n).1 }
        (s.stdout.read s.job.chunk n).2
      dsimp only
      rw [heq]
      exact hself
  · unfold Exec.stderrStep
    split <;> exact hself
  · unfold Exec.killChild Exec.exit
    split
    · exact hself
    · exact ⟨rfl, rfl, fun _ => rfl⟩
  · unfold Exec.waitStep
    split
    · exact hself
    · exact hself
    · split <;> exact hself
  · exact hself
  · exact hself

theorem fixed_run (host : Host) (job : Job) (nonblock : Option Err) (steps : List Step) :
    (run host job nonblock steps).host = host ∧ (run host job nonblock steps).job = job := by
  unfold run
  induction steps using List.reverseRecOn with
  | nil => cases nonblock <;> exact ⟨rfl, rfl⟩
  | append_singleton steps st ih =>
    rw [List.foldl_append]
    show ((steps.foldl step _).step st).host = host ∧ ((steps.foldl step _).step st).job = job
    by_cases hst : ∃ a, st = .daemon a
    · obtain ⟨a, rfl⟩ := hst
      obtain ⟨hhost, hjob, -⟩ := daemon_fixed (steps.foldl step (start host job nonblock)) a
      exact ⟨hhost.trans ih.1, hjob.trans ih.2⟩
    · have ho := others_step (steps.foldl step (start host job nonblock))
        fun a ha => hst ⟨a, ha⟩
      exact ⟨ho.host.trans ih.1, ho.job.trans ih.2⟩

/-! ## Neither side waits for the other for ever -/

theorem Flow.gone_ready (h : s.Flow) (hx : s.exited.isSome = true) :
    s.inReady = !s.stdinDone ∧ s.outReady = !s.stdout.eof ∧ s.errReady = !s.stderr.eof := by
  obtain ⟨hin, hout, herr⟩ := h.gone hx
  unfold inReady outReady errReady Pipe.writable Pipe.readable
  rw [hin, hout, herr]
  simp

/-- A pipe that `poll` does not report lets the process read. -/
theorem Serving.readable (h : s.Serving) (hin : s.inReady = false) : s.stdin.readable = true := by
  unfold Pipe.readable
  cases hd : s.stdinDone with
  | true =>
    rw [h.stdin, hd]
    simp
  | false =>
    have hw : s.stdin.writable s.host.cap = false := by simpa [inReady, hd] using hin
    have hlen : s.host.cap ≤ s.stdin.bytes.length := by
      simpa using (Bool.or_eq_false_iff.mp hw).1
    have hne : s.stdin.bytes ≠ [] := by
      intro hnil
      rw [hnil] at hlen
      exact absurd s.host.pos (Nat.not_lt.mpr hlen)
    simp [hne]

/-- An output that `poll` does not report has room. -/
theorem writable_of_quiet {cap : Nat} (hcap : 0 < cap) {o : Output} (hend : o.eof = true → o.Ended)
    (hquiet : (!o.eof && o.pipe.readable) = false) : o.pipe.writable cap = true := by
  have hnil : o.pipe.bytes = [] := by
    cases he : o.eof with
    | true => exact (hend he).1
    | false =>
      have hr : o.pipe.readable = false := by simpa [he] using hquiet
      simpa using (Bool.or_eq_false_iff.mp hr).1
  unfold Pipe.writable
  rw [hnil]
  simp [hcap]

theorem free_of_waits (hflow : s.Flow) (h : s.Placed) (hw : s.waits = true) :
    s.exited = none ∧ s.free = true := by
  unfold Placed at h
  unfold waits at hw
  unfold free
  cases hloc : s.loc with
  | poll =>
    rw [hloc] at h hw
    have h : s.Serving := h
    obtain ⟨hserved, hquiet⟩ : s.served = false ∧ s.quiet = true := by simpa using hw
    obtain ⟨⟨⟨hin, hout⟩, herr⟩, -⟩ :
        ((s.inReady = false ∧ s.outReady = false) ∧ s.errReady = false) ∧ s.token = false := by
      simpa [quiet] using hquiet
    refine ⟨?_, ?_⟩
    · cases hx : s.exited with
      | none => rfl
      | some status =>
        obtain ⟨hin', hout', herr'⟩ := hflow.gone_ready (by rw [hx]; rfl)
        rw [hin'] at hin
        rw [hout'] at hout
        rw [herr'] at herr
        simp [served] at hin hout herr hserved
        simp [hin, hout, herr] at hserved
    · rw [h.readable hin, writable_of_quiet s.host.pos h.outEnd hout,
        writable_of_quiet s.host.pos h.errEnd herr]
      rfl
  | wait =>
    rw [hloc] at h hw
    obtain ⟨hclosed, -, -⟩ := h
    refine ⟨by simpa using hw, ?_⟩
    unfold Pipe.readable Pipe.writable
    rw [hclosed.stdin, hclosed.out, hclosed.err]
    simp
  | _ =>
    rw [hloc] at hw
    cases hw

/-! ## What holds in every run -/

/-- What a state guarantees to the caller and to the process. -/
structure Safe (host : Host) (job : Job) (s : Exec) : Prop where
  /-- The process reads the script in order, each byte once. -/
  script : s.taken ++ s.stdin.bytes = job.script.take s.written
  /-- It does not come to the end of a shorter script, unless the daemon gives up. -/
  whole : s.stdin.reader = true → s.stdin.writer = false → s.stdin.bytes = [] →
    s.err = none → s.canceled = false → s.taken = job.script
  /-- The outputs are read in order, each byte once. -/
  outputs : s.stdout.got ++ s.stdout.pipe.bytes = s.stdout.written ∧
    s.stderr.got ++ s.stderr.pipe.bytes = s.stderr.written
  /-- The messages are kept as far as they fit. -/
  messages : s.errBuf.data.Sublist s.stderr.got ∧ s.errBuf.data.length ≤ stderrCap ∧
    (s.stderr.got.length ≤ stderrCap → s.errBuf.data = s.stderr.got)
  /-- Where the daemon has to wait the process is there, and need not wait itself. -/
  live : s.waits = true → s.exited = none ∧ s.free = true
  /-- Success: the process ended well, and all it wrote was read and, if wanted, kept. -/
  success : s.loc = .returned none → s.exited = some 0 ∧ s.stdout.got = s.stdout.written ∧
    s.stderr.got = s.stderr.written ∧ (job.capture = true → s.outBuf.data = s.stdout.written)
  /-- A call that was canceled ends as such, with the process gone. -/
  canceled : s.canceled = true →
    s.loc = .kill ∨ s.loc = .returned (some .canceled) ∧ s.exited.isSome = true
  /-- The signal kills the daemon only at a write that nobody reads. -/
  killed : s.loc = .dead → host.ignore = false ∧ job.script ≠ [] ∧ s.stdin.reader = false

theorem Placed.success (hflow : s.Flow) (h : s.Placed) (hloc : s.loc = .returned none) :
    s.exited = some 0 ∧ s.stdout.got = s.stdout.written ∧ s.stderr.got = s.stderr.written ∧
      (s.job.capture = true → s.outBuf.data = s.stdout.written) := by
  unfold Placed at h
  rw [hloc] at h
  obtain ⟨-, ⟨-, he, -⟩ | ⟨-, hs⟩⟩ := h
  · cases he
  · have hs := hs rfl
    have hout : s.stdout.got = s.stdout.written := by
      have hok : s.stdout.got ++ s.stdout.pipe.bytes = s.stdout.written := hflow.out
      rw [hs.out.1, List.append_nil] at hok
      exact hok
    have herr : s.stderr.got = s.stderr.written := by
      have hok : s.stderr.got ++ s.stderr.pipe.bytes = s.stderr.written := hflow.err
      rw [hs.err.1, List.append_nil] at hok
      exact hok
    exact ⟨hs.status, hout, herr, fun hc => (hflow.all hc (hs.unlimited hc)).trans hout⟩

theorem Placed.canceled (h : s.Placed) (hc : s.canceled = true) :
    s.loc = .kill ∨ s.loc = .returned (some .canceled) ∧ s.exited.isSome = true := by
  unfold Placed at h
  cases hloc : s.loc with
  | kill => exact .inl rfl
  | dead =>
    rw [hloc] at h
    cases hc.symm.trans h.2.2.2
  | returned e =>
    rw [hloc] at h
    obtain ⟨-, ⟨-, rfl, hx⟩ | ⟨hno, -⟩⟩ := h
    · exact .inr ⟨rfl, hx⟩
    · rw [hc] at hno
      cases hno
  | poll =>
    rw [hloc] at h
    cases hc.symm.trans (Serving.wanted h)
  | stdin pollout out err =>
    rw [hloc] at h
    cases hc.symm.trans h.1.wanted
  | stdout err =>
    rw [hloc] at h
    cases hc.symm.trans h.1.wanted
  | stderr =>
    rw [hloc] at h
    cases hc.symm.trans h.1.wanted
  | wait =>
    rw [hloc] at h
    cases hc.symm.trans h.2.1

theorem Placed.killed (h : s.Placed) (hloc : s.loc = .dead) :
    s.host.ignore = false ∧ s.job.script ≠ [] ∧ s.stdin.reader = false := by
  unfold Placed at h
  rw [hloc] at h
  exact ⟨h.1, h.2.1, h.2.2.1⟩

/-- In every order of the steps of the daemon, the process and the thread that cancels. -/
theorem executable_run (host : Host) (job : Job) (nonblock : Option Err) (steps : List Step) :
    Safe host job (run host job nonblock steps) := by
  obtain ⟨hflow, hplaced⟩ := inv_run host job nonblock steps
  obtain ⟨hhost, hjob⟩ := fixed_run host job nonblock steps
  generalize run host job nonblock steps = s at hflow hplaced hhost hjob
  subst hhost hjob
  refine
    { script := hflow.script
      whole := fun hreader hwriter hnil herr hcanceled => ?_
      outputs := ⟨hflow.out, hflow.err⟩
      messages := ⟨hflow.errKept, ?_, hflow.errAll⟩
      live := free_of_waits hflow hplaced
      success := hplaced.success hflow
      canceled := hplaced.canceled
      killed := fun hloc => ?_ }
  · have htaken := hflow.script
    rw [hnil, List.append_nil] at htaken
    rcases hflow.whole hwriter with hlen | hno | hno | hno
    · rw [htaken, hlen, List.take_length]
    · rw [hreader] at hno
      cases hno
    · rw [herr] at hno
      cases hno
    · rw [hcanceled] at hno
      cases hno
  · exact (s.errBuf.fits.trans s.errBuf.bounded).trans_eq hflow.errCap
  · exact hplaced.killed hloc

end Exec

end MagiTrickle.Iptables
