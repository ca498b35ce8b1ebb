import MagiTrickle.Iptables.ExecutableSafe

/-!
# The end of a call

Once the process is gone the daemon returns from the call by itself, or is killed
by `SIGPIPE` (`executable_returns`). That can happen, and does in some run, exactly
if there is something to write and the signal is not ignored (`killed_iff`).
-/

namespace MagiTrickle.Iptables

namespace Output

variable {o : Output}

def rest (o : Output) : Nat := o.pipe.bytes.length + if o.eof then 0 else 1

theorem rest_read {size n : Nat} (hend : o.pipe.writer = false)
    (heof : o.eof = false) : (o.read size n).1.rest < o.rest := by
  unfold rest read
  rw [hend, heof]
  split
  · next hnil => simp [hnil]
  · next hne =>
    have hlen := List.length_pos_iff.mpr hne
    have hsize : 1 ≤ o.readSize size n := Nat.le_max_left _ _
    show (o.pipe.bytes.drop _).length + _ < _
    rw [List.length_drop]
    simp
    omega

end Output

namespace Exec

variable {s : Exec}

/-! ## Once the process is gone -/

def rest (s : Exec) : Nat :=
  (if s.stdinDone then 0 else 1) + s.stdout.rest + s.stderr.rest

/-- A bound on the calls the daemon still makes. -/
def fuel (s : Exec) : Nat :=
  match s.loc with
  | .poll => 4 * s.rest + 3
  | .stdin _ _ _ => 4 * s.rest + 2
  | .stdout _ => 4 * s.rest + 2
  | .stderr => 4 * s.rest + 2
  | .kill => 1
  | .wait => 1
  | .returned _ => 0
  | .dead => 0

theorem fuel_leave (s : Exec) : s.leave.fuel = 1 := by
  unfold fuel
  cases hc : s.canceled with
  | true =>
    have hloc : s.leave.loc = .kill := if_pos hc
    rw [hloc]
  | false =>
    have hloc : s.leave.loc = .wait := if_neg (by rw [hc]; decide)
    rw [hloc]

theorem fuel_next (s : Exec) (out err : Bool) :
    fuel { s with loc := next out err } ≤ 4 * s.rest + 3 := by
  unfold next
  split
  · exact Nat.le_succ _
  · split
    · exact Nat.le_succ _
    · exact Nat.le_refl _

theorem fuel_pollStep (hquiet : s.served = false → s.quiet = false) (n : Nat) :
    (s.pollStep (.count n)).fuel < 4 * s.rest + 3 := by
  unfold Exec.pollStep
  split
  · rw [fuel_leave]
    omega
  · next hserved =>
    have hq := hquiet (Bool.eq_false_iff.mpr hserved)
    rw [hq]
    dsimp only
    rw [if_neg (by decide)]
    split
    · rw [fuel_leave]
      omega
    · next htoken =>
      split
      · exact Nat.lt_succ_self _
      · next hin =>
        have hin := Bool.eq_false_iff.mpr hin
        have htoken := Bool.eq_false_iff.mpr htoken
        unfold Exec.next
        split
        · exact Nat.lt_succ_self _
        · next hout =>
          split
          · exact Nat.lt_succ_self _
          · next herr =>
            have hout := Bool.eq_false_iff.mpr hout
            have herr := Bool.eq_false_iff.mpr herr
            simp [quiet, hin, hout, herr, htoken] at hq

theorem fuel_stdinStep (hreader : s.stdin.reader = false) (hdone : s.stdinDone = false)
    (pollout out err : Bool) (a : Answer) :
    (s.stdinStep pollout out err a).fuel < 4 * s.rest + 2 := by
  have hclose : fuel { s.closeStdin with loc := next out err } < 4 * s.rest + 2 := by
    have hrest : s.closeStdin.rest + 1 = s.rest := by
      show 0 + s.stdout.rest + s.stderr.rest + 1 = s.rest
      unfold rest
      rw [hdone, if_neg (by decide)]
      omega
    refine (fuel_next s.closeStdin out err).trans_lt ?_
    omega
  unfold Exec.stdinStep
  split
  · exact hclose
  · rw [if_pos (by rw [hreader]; rfl)]
    split
    · exact hclose
    · exact Nat.succ_pos _

theorem fuel_stdoutStep (hwriter : s.stdout.pipe.writer = false) (heof : s.stdout.eof = false)
    (err : Bool) (n : Nat) : (s.stdoutStep err (.count n)).fuel < 4 * s.rest + 2 := by
  obtain ⟨b, l, heq⟩ := keep_eq { s with stdout := (s.stdout.read s.job.chunk n).1 }
    (s.stdout.read s.job.chunk n).2
  have hrest : (s.stdout.read s.job.chunk n).1.rest < s.stdout.rest :=
    Output.rest_read hwriter heof
  unfold Exec.stdoutStep
  dsimp only
  rw [heq]
  refine (fuel_next _ false err).trans_lt ?_
  unfold rest
  dsimp only
  omega

theorem fuel_stderrStep (hwriter : s.stderr.pipe.writer = false) (heof : s.stderr.eof = false)
    (n : Nat) : (s.stderrStep (.count n)).fuel < 4 * s.rest + 2 := by
  have hrest : (s.stderr.read 1024 n).1.rest < s.stderr.rest := Output.rest_read hwriter heof
  show 4 * _ + 3 < _
  unfold rest Exec.stderrStep
  dsimp only
  omega

/-- While the process is gone, every call of the daemon that is answered brings it on. -/
theorem fuel_daemon (hflow : s.Flow) (hplaced : s.Placed) (hx : s.exited.isSome = true)
    (hfinal : s.final = false) (n : Nat) : (s.daemon (.count n)).fuel < s.fuel := by
  obtain ⟨hreader, hout, herr⟩ := hflow.gone hx
  have h := hplaced
  unfold Placed at h
  unfold final at hfinal
  unfold fuel Exec.daemon
  cases hloc : s.loc with
  | poll =>
    refine fuel_pollStep (fun hs => ?_) n
    have hwaits : s.waits = false := by
      cases hw : s.waits with
      | false => rfl
      | true =>
        rw [(free_of_waits hflow hplaced hw).1] at hx
        cases hx
    unfold waits at hwaits
    rw [hloc] at hwaits
    simpa [hs] using hwaits
  | stdin pollout out err =>
    rw [hloc] at h
    exact fuel_stdinStep hreader h.2.1 pollout out err _
  | stdout err =>
    rw [hloc] at h
    exact fuel_stdoutStep hout h.2.1 err n
  | stderr =>
    rw [hloc] at h
    exact fuel_stderrStep herr h.2 n
  | kill => exact Nat.zero_lt_one
  | wait =>
    obtain ⟨status, hstatus⟩ := Option.isSome_iff_exists.mp hx
    dsimp only
    unfold Exec.waitStep
    rw [hstatus]
    exact Nat.zero_lt_one
  | returned e =>
    rw [hloc] at hfinal
    cases hfinal
  | dead =>
    rw [hloc] at hfinal
    cases hfinal

theorem daemon_final (h : s.final = true) (a : Answer) : s.daemon a = s := by
  unfold final at h
  unfold Exec.daemon
  split at h
  · next hloc => rw [hloc]
  · next hloc => rw [hloc]
  · cases h

theorem final_alone (h : s.final = true) (ns : List Nat) :
    (ns.foldl (fun s n => s.daemon (.count n)) s).final = true := by
  induction ns with
  | nil => exact h
  | cons n ns ih =>
    rw [List.foldl_cons, daemon_final h]
    exact ih

theorem final_of_gone (host : Host) (job : Job) (nonblock : Option Err) (steps : List Step)
    (hx : (run host job nonblock steps).exited.isSome = true) :
    ∃ bound, ∀ ns : List Nat, bound ≤ ns.length →
      (ns.foldl (fun s n => s.daemon (.count n)) (run host job nonblock steps)).final = true := by
  obtain ⟨hflow, hplaced⟩ := inv_run host job nonblock steps
  generalize run host job nonblock steps = s at hflow hplaced hx
  refine ⟨s.fuel, fun ns hns => ?_⟩
  induction ns generalizing s with
  | nil =>
    show s.final = true
    cases hfinal : s.final with
    | true => rfl
    | false =>
      have hlt := fuel_daemon hflow hplaced hx hfinal 0
      have hzero : s.fuel ≤ 0 := hns
      omega
  | cons n ns ih =>
    cases hfinal : s.final with
    | true => exact final_alone hfinal (n :: ns)
    | false =>
      have hlt := fuel_daemon hflow hplaced hx hfinal n
      have hlen : s.fuel ≤ ns.length + 1 := hns
      exact ih (s.daemon (.count n)) (hflow.daemon hplaced _) (placed_daemon hflow hplaced _)
        ((daemon_fixed s _).2.2 hx) (by omega)

theorem killed_run {host : Host} {job : Job} {nonblock : Option Err} {steps : List Step}
    (hdead : (run host job nonblock steps).loc = .dead) :
    host.ignore = false ∧ job.script ≠ [] := by
  obtain ⟨-, hplaced⟩ := inv_run host job nonblock steps
  obtain ⟨hhost, hjob⟩ := fixed_run host job nonblock steps
  obtain ⟨hno, hne, -⟩ := hplaced.killed hdead
  rw [hhost] at hno
  rw [hjob] at hne
  exact ⟨hno, hne⟩

/-- Once the process is gone, the daemon returns by itself, however much each of its calls gets
done, or is killed by the signal, which is not ignored then and there was something to write. -/
theorem executable_returns (host : Host) (job : Job) (nonblock : Option Err) (steps : List Step)
    (hx : (run host job nonblock steps).exited.isSome = true) :
    ∃ bound, ∀ ns : List Nat, bound ≤ ns.length →
      (∃ e, (ns.foldl (fun s n => s.daemon (.count n)) (run host job nonblock steps)).loc =
        .returned e) ∨
      (ns.foldl (fun s n => s.daemon (.count n)) (run host job nonblock steps)).loc = .dead ∧
        host.ignore = false ∧ job.script ≠ [] := by
  obtain ⟨bound, hbound⟩ := final_of_gone host job nonblock steps hx
  refine ⟨bound, fun ns hns => ?_⟩
  have hfinal := hbound ns hns
  have hrun : ns.foldl (fun s n => s.daemon (.count n)) (run host job nonblock steps) =
      run host job nonblock (steps ++ ns.map fun n => .daemon (.count n)) := by
    rw [run, run, List.foldl_append, List.foldl_map]
    rfl
  rw [hrun] at hfinal ⊢
  unfold final at hfinal
  split at hfinal
  · next e hloc => exact .inl ⟨e, hloc⟩
  · next hloc => exact .inr ⟨hloc, killed_run hloc⟩
  · cases hfinal

theorem executable_returns_save :
    ∃ bound, ∀ ns : List Nat, bound ≤ ns.length →
      ∃ e, (ns.foldl (fun s n => s.daemon (.count n))
        (run ⟨65536, false, by decide⟩ realSave none
          [.writeOut (str "COMMIT"), .exit 0])).loc = .returned e := by
  obtain ⟨bound, h⟩ := executable_returns ⟨65536, false, by decide⟩ realSave none
    [.writeOut (str "COMMIT"), .exit 0] rfl
  exact ⟨bound, fun ns hns => (h ns hns).resolve_right fun hdead => hdead.2.2 rfl⟩

/-! ## The signal -/

theorem stdinStep_dead (hreader : s.stdin.reader = false) (hignore : s.host.ignore = false)
    (out err : Bool) (a : Answer) : (s.stdinStep true out err a).loc = .dead := by
  unfold Exec.stdinStep
  rw [hreader, hignore]
  rfl

/-- The process need only be gone before the script is written. -/
theorem dead_of_script {host : Host} {job : Job} (hignore : host.ignore = false)
    (hscript : job.script ≠ []) : ∃ steps, (run host job none steps).loc = .dead := by
  refine ⟨[.exit 1, .daemon (.count 0), .daemon (.count 0)], ?_⟩
  let s := (start host job none).exit 1
  have hdone : s.stdinDone = false := decide_eq_false hscript
  have hin : s.inReady = true := by
    show (!s.stdinDone && (_ || !false)) = true
    rw [hdone]
    simp
  have hpoll : s.daemon (.count 0) = { s with
      loc := .stdin (s.stdin.bytes.length < s.host.cap) s.outReady s.errReady } := by
    show s.pollStep (.count 0) = _
    have hserved : s.served = false := by simp [served, hdone]
    have hquiet : s.quiet = false := by simp [quiet, hin]
    have htoken : s.token = false := rfl
    unfold Exec.pollStep
    rw [hserved, hquiet, htoken, hin]
    rfl
  have hroom : decide (s.stdin.bytes.length < s.host.cap) = true := decide_eq_true host.pos
  show ((s.daemon (.count 0)).daemon (.count 0)).loc = .dead
  rw [hpoll, hroom]
  exact @stdinStep_dead { s with loc := .stdin true s.outReady s.errReady } rfl hignore _ _
    (.count 0)

/-- The daemon can be killed by the signal exactly if it is not ignored and there is something to
write. -/
theorem killed_iff (host : Host) (job : Job) :
    (∃ steps, (run host job none steps).loc = .dead) ↔
      host.ignore = false ∧ job.script ≠ [] :=
  ⟨fun ⟨_, hdead⟩ => killed_run hdead, fun ⟨hignore, hscript⟩ => dead_of_script hignore hscript⟩

/-- `real_save` writes nothing. -/
theorem realSave_not_dead (host : Host) (steps : List Step) :
    (run host realSave none steps).loc ≠ .dead :=
  fun hdead => (killed_run hdead).2 rfl

/-- `real_restore` writes the transcript. -/
theorem realRestore_dead_iff (host : Host) (data : Bytes) :
    (∃ steps, (run host (realRestore data) none steps).loc = .dead) ↔
      host.ignore = false ∧ data ≠ [] :=
  ⟨fun ⟨_, hdead⟩ => killed_run hdead, fun ⟨hignore, hdata⟩ => dead_of_script hignore hdata⟩

end Exec

end MagiTrickle.Iptables
