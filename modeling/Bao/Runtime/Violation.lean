import Bao.Runtime.Routines

/-!
# Detection of mid-region power failures

The in-region flag is up while a region runs, so a boot that finds it up knows that the power
failed inside a region: it reports the violation and never goes on (`reported_of_flag`). A boot that
finds the flag down goes on.

Between two boundaries the flag is down in one place only. `bench_commit_result` clears it before it
writes `__nvm_done`, and a failure between the two writes is neither reported nor parked: the next
boot resumes at the last boundary or starts cold, and user code runs again
(`silent_reexecution`). `violation_reported_iff` says that this window is the only gap: in
every run, a failure inside a region is reported exactly if it is outside the window.
-/

namespace Bao.Runtime

open Machine (Code Point CodeStep CodeRun)

/-- A region was entered, and since then no boundary was committed and no power failure came. -/
def entered : List Event → Bool
  | [] => false
  | .coldStarted :: _ => true
  | .continued :: _ => true
  | .resumed _ _ :: _ => true
  | .committed :: _ => false
  | .failed :: _ => false
  | _ :: log => entered log

/-- `bench_commit_result` has cleared the in-region flag and not yet set `__nvm_done`. -/
def recordingResult : List Event → Bool
  | [] => false
  | .recording :: _ => true
  | .recorded :: _ => false
  | .failed :: _ => false
  | _ :: log => recordingResult log

/-- Inside a region, before its next boundary or the final result record is completed. -/
def MidRegion (log : List Event) : Prop := entered log = true ∧ Event.recorded ∉ log

/-- The window inside the first `bench_commit_result`. -/
def InWindow (log : List Event) : Prop := recordingResult log = true ∧ Event.recorded ∉ log

/-- **A failure is reported**: the boot that starts in state `s` ends with the violation recorded,
and user code never runs again, whatever power failures follow. -/
structure Reported (B : Build) (s : State) : Prop where
  ends : ∃ e t, CodeRun B.sem (.before (boot B)) s (.before (.exit e)) t
  violation : ∀ e t, CodeRun B.sem (.before (boot B)) s (.before (.exit e)) t →
    e = .blink ∧ t.nvm .violation = 1
  stops : ∀ c, Relation.ReflTransGen (Step B) ⟨.before .boot (boot B), s⟩ c → ∀ a, c.ctl ≠ .user a

variable {B : Build} {s t : State}

/-! ### What a boot does with the flag -/

theorem exists_boot_exit (B : Build) (s : State) :
    ∃ e t, CodeRun B.sem (.before (boot B)) s (.before (.exit e)) t :=
  Code.exists_exit (fun u => ⟨u.drop, rfl⟩) (boot B) s

/-- The flag is up and the run is not finished. -/
def FlagUp (s : State) : Prop := s.nvm .inRegion ≠ 0 ∧ s.nvm .done ≠ 1

/-- A boot with the flag up ends blinking, with the violation recorded. -/
theorem boot_of_flagUp (h : FlagUp s) : (boot B).wp B.sem FlagUp (fun _ _ => True)
    (fun e t => e = .blink ∧ t.nvm .violation = 1) s := by
  have hflag : ∀ t : State, t.nvm .inRegion = s.nvm .inRegion → t.nvm .done = s.nvm .done →
      FlagUp t := by
    intro t hregion hdone
    rw [FlagUp, hregion, hdone]
    exact h
  refine wp_boot (fun t ht => hflag t (ht.nvm .inRegion rfl) (ht.nvm .done rfl))
    (fun hdone => absurd hdone h.2)
    (fun _ _ t ht => ⟨hflag t ht.inRegion ht.done, rfl, ht.violation⟩)
    (fun _ hregion => absurd hregion h.1) fun _ hregion => absurd hregion h.1

/-- From a boot with the flag up, the device stays in the boot code for good. -/
theorem stays_in_boot (h : FlagUp s) {c : Config}
    (hsteps : Relation.ReflTransGen (Step B) ⟨.before .boot (boot B), s⟩ c) :
    ∃ p, c.ctl = .code .boot p ∧ p.Ok B.sem FlagUp (fun _ _ => True)
      (fun e t => e = .blink ∧ t.nvm .violation = 1) c.s := by
  induction hsteps with
  | refl => exact ⟨_, rfl, boot_of_flagUp h⟩
  | @tail c d _ hstep ih =>
    obtain ⟨p, hctl, hok⟩ := ih
    cases hstep with
    | code hcode =>
      simp only [Control.code.injEq] at hctl
      obtain ⟨rfl, rfl⟩ := hctl
      exact ⟨_, rfl, hok.step hcode⟩
    | resume s =>
      obtain rfl : Point.before (.exit .ret) = p := by simpa [Control.before] using hctl
      exact absurd hok.2.1 (by decide)
    | crt s =>
      obtain rfl : Point.before (.exit .crt) = p := by simpa [Control.before] using hctl
      exact absurd hok.2.1 (by decide)
    | fail c hfail =>
      have hcrash : FlagUp c.s := hok.crash
      refine ⟨_, rfl, boot_of_flagUp ?_⟩
      rw [FlagUp, hfail.nvm]
      exact hcrash
    | boundaryRet s => exact absurd hctl (by simp [Control.before])
    | commitRet s => exact absurd hctl (by simp [Control.before])
    | swbor s => exact absurd hctl (by simp [Control.before])
    | start s => exact absurd hctl (by simp [Control.before])
    | user _ _ _ => exact absurd hctl (by simp)
    | callBoundary _ s ra => exact absurd hctl (by simp)
    | callCommitResult _ s ra result => exact absurd hctl (by simp)
    | callHalt _ s ra _ => exact absurd hctl (by simp)

/-- **A flag that is up is reported.** -/
theorem reported_of_flag (h : FlagUp s) : Reported B s := by
  refine ⟨exists_boot_exit B s, fun e t hrun => ?_, fun c hsteps a huser => ?_⟩
  · exact Code.wp_exit (Q := fun e t => e = .blink ∧ t.nvm .violation = 1) (boot_of_flagUp h) hrun
  · obtain ⟨p, hctl, -⟩ := stays_in_boot h hsteps
    rw [huser] at hctl
    exact absurd hctl (by simp)

/-- A boot with the flag down hands over to user code, unless the run is finished. -/
theorem not_reported_of_flag (hflag : s.nvm .inRegion = 0) (hdone : s.nvm .done ≠ 1) :
    ¬Reported B s := by
  intro h
  have hok : (boot B).wp B.sem (fun _ => True) (fun _ _ => True)
      (fun e _ => e = .ret ∨ e = .crt) s :=
    wp_boot (fun _ _ => trivial) (fun hdone' => absurd hdone' hdone)
      (fun _ hflag' => absurd hflag hflag')
      (fun _ _ _ => ⟨fun _ _ => trivial, fun _ _ => trivial, fun _ _ => ⟨trivial, .inr rfl⟩⟩)
      fun _ _ _ => ⟨fun _ _ => trivial, fun _ _ => trivial, fun _ _ => ⟨trivial, .inl rfl⟩⟩
  obtain ⟨e, t, hrun⟩ := h.ends
  obtain ⟨rfl, -⟩ := h.violation e t hrun
  exact absurd (Code.wp_exit hok hrun) (by decide)

/-! ### The outline -/

/-- The crash condition: the flag is up inside a region, except in the window. -/
structure DetectionCrash (s : State) : Prop where
  done_iff : s.nvm .done = 1 ↔ Event.recorded ∈ s.log
  flag : MidRegion s.log → ¬InWindow s.log → s.nvm .inRegion = 1
  window : InWindow s.log → s.nvm .inRegion = 0

/-- User code runs with the flag up, or after the result is recorded. -/
structure DetectionUser (s : State) : Prop where
  done_iff : s.nvm .done = 1 ↔ Event.recorded ∈ s.log
  idle : recordingResult s.log = false
  flag : Event.recorded ∉ s.log → s.nvm .inRegion = 1

/-- A boot starts outside all regions. -/
structure DetectionBoot (s : State) : Prop where
  done_iff : s.nvm .done = 1 ↔ Event.recorded ∈ s.log
  idle : recordingResult s.log = false
  outside : entered s.log = false

theorem DetectionUser.crash (h : DetectionUser s) : DetectionCrash s := by
  refine ⟨h.done_iff, fun hmid _ => h.flag hmid.2, fun hwin => ?_⟩
  have hrec := hwin.1
  rw [h.idle] at hrec
  exact absurd hrec (by decide)

/-- Outside all regions the crash condition asks for nothing but the end of the run. -/
theorem DetectionBoot.crash (h : DetectionBoot s) (hlog : t.log = s.log)
    (hdone : t.nvm .done = s.nvm .done) : DetectionCrash t := by
  refine ⟨by rw [hlog, hdone]; exact h.done_iff, fun hmid => ?_, fun hwin => ?_⟩
  · have hent := hmid.1
    rw [hlog, h.outside] at hent
    exact absurd hent (by decide)
  · have hrec := hwin.1
    rw [hlog, h.idle] at hrec
    exact absurd hrec (by decide)

/-- The exits of the routines. -/
def detectionExit : Who → Exit → State → Prop
  | .boot, .ret, s => DetectionUser s
  | .boot, .crt, s => DetectionUser s
  | .boundary, .ret, s => DetectionUser s
  | .boundary, .swbor, s => DetectionBoot s
  | .boundary, .start, s => DetectionBoot s
  | .commitResult, .ret, s => DetectionUser s
  | _, _, _ => True

theorem detection_boot (h : DetectionBoot s) :
    (boot B).wp B.sem DetectionCrash (fun _ _ => True) (detectionExit .boot) s := by
  have huser : ∀ t : State, t.log = s.log → t.nvm .done = s.nvm .done → t.nvm .inRegion = 1 →
      DetectionUser t := by
    intro t hlog hdone hflag
    refine ⟨?_, ?_, fun _ => hflag⟩
    · rw [hlog, hdone]
      exact h.done_iff
    · rw [hlog]
      exact h.idle
  refine wp_boot (fun t ht => h.crash ht.log (ht.nvm .done rfl)) (fun _ => trivial)
    (fun _ _ t ht => ⟨h.crash ht.log ht.done, trivial⟩) (fun _ _ _ => ?_) fun _ _ _ => ?_
  · refine ⟨fun _ _ => trivial, fun t ht => h.crash ht.log ht.done, fun t ht => ?_⟩
    exact ⟨h.crash ht.log ht.done, huser t ht.log ht.done ht.inRegion⟩
  · refine ⟨fun _ _ => trivial, fun t ht => h.crash ht.log ht.done, fun t ht => ?_⟩
    exact ⟨h.crash ht.log ht.done, huser t ht.log ht.done ht.inRegion⟩

theorem detection_boundary (ra : Word) (h : DetectionUser s) :
    (regionBoundary B).wp B.sem DetectionCrash (fun _ _ => True) (detectionExit .boundary)
      ((s.pushWord ra).note (.called ra (s.reg SP))) := by
  have hrecorded : ∀ {l : List Event}, l = .committed :: .called ra (s.reg SP) :: s.log →
      (Event.recorded ∈ l ↔ Event.recorded ∈ s.log) := by
    rintro l rfl
    simp
  -- a committed boundary is outside all regions
  have hboot : ∀ {flag : Word} t,
      Committed ((s.pushWord ra).note (.called ra (s.reg SP))) flag t → DetectionBoot t := by
    intro flag t ht
    refine ⟨?_, ?_, ?_⟩
    · rw [hrecorded ht.log, ht.done]
      exact h.done_iff
    · rw [ht.log]
      exact h.idle
    · rw [ht.log]
      rfl
  refine wp_regionBoundary (fun t ht => ⟨?_, fun hmid _ => ?_, fun hwin => ?_⟩)
    (fun t ht => (hboot t ht).crash rfl rfl) (fun _ t ht => hboot t ht)
    (fun _ t ht => hboot t ht) fun _ t ht => ⟨(hboot t ht).crash rfl rfl, ?_⟩
  · rw [ht.log, ht.done]
    simpa using h.done_iff
  · rw [ht.inRegion]
    refine h.flag fun hmem => hmid.2 ?_
    rw [ht.log]
    exact List.mem_cons_of_mem _ hmem
  · have hrec := hwin.1
    rw [ht.log] at hrec
    exact absurd (h.idle.symm.trans hrec) (by decide)
  · exact ⟨(hboot t ht).done_iff, (hboot t ht).idle, fun _ => ht.inRegion⟩

theorem detection_commitResult (ra result : Word) (h : DetectionUser s) :
    (benchCommitResult result).wp B.sem DetectionCrash (fun _ _ => True)
      (detectionExit .commitResult) (s.pushWord ra) := by
  -- between the two writes the log ends with `recording`
  have hwindow : ∀ t : State, t.log = .recording :: s.log → t.nvm .done = s.nvm .done →
      t.nvm .inRegion = 0 → DetectionCrash t := by
    intro t hlog hdone hflag
    refine ⟨?_, fun hmid hnot => ?_, fun _ => hflag⟩
    · rw [hlog, hdone]
      simpa using h.done_iff
    · refine absurd ⟨?_, hmid.2⟩ hnot
      rw [hlog]
      rfl
  have hend : ∀ t : State, t.log = .recorded :: .recording :: s.log → t.nvm .done = 1 →
      DetectionUser t := by
    intro t hlog hdone
    refine ⟨iff_of_true hdone (by simp [hlog]), by rw [hlog]; rfl, fun hnot => ?_⟩
    exact absurd (by simp [hlog]) hnot
  refine ⟨⟨h.done_iff, fun hmid _ => h.flag hmid.2, h.crash.window⟩, hwindow _ rfl ?_ ?_,
    hwindow _ rfl ?_ ?_, (hend _ rfl ?_).crash, hend _ rfl ?_⟩
  all_goals simp [Build.sem, Op.exec, Instr.op, Instr.exec]

theorem detection_halt (ra : Word) (h : DetectionUser s) (hdone : s.nvm .done = 1) :
    benchHalt.wp B.sem DetectionCrash (fun _ _ => True) (detectionExit .halt)
      (s.pushWord ra) := by
  have hcrash : ∀ t : State, t.log = s.log → t.nvm .done = s.nvm .done → DetectionCrash t := by
    intro t hlog hdone'
    have hmem : Event.recorded ∈ t.log := by
      rw [hlog]
      exact h.done_iff.mp hdone
    refine ⟨iff_of_true (hdone'.trans hdone) hmem, fun hmid => ?_, fun hwin => ?_⟩
    · exact absurd hmem hmid.2
    · exact absurd hmem hwin.2
  refine ⟨hcrash _ rfl rfl, hcrash _ rfl ?_, trivial⟩
  simp [Build.sem, Op.exec, Instr.op, Instr.exec]

/-- The outline of the detection, in every build. -/
def detection (B : Build) : Outline B where
  crash := DetectionCrash
  assert _ _ := True
  exit := detectionExit
  user := DetectionUser
  user_crash _ h := h.crash
  user_step s t h ht := by
    refine ⟨?_, ?_, ?_⟩
    · rw [ht.nvm, ht.log]
      exact h.done_iff
    · rw [ht.log]
      exact h.idle
    · rw [ht.nvm, ht.log]
      exact h.flag
  initial s hnvm hlog _ := by
    refine detection_boot ⟨?_, by rw [hlog]; rfl, by rw [hlog]; rfl⟩
    rw [hnvm, hlog]
    simp
  reboot s t h ht := by
    refine detection_boot ⟨?_, by rw [ht.log]; rfl, by rw [ht.log]; rfl⟩
    rw [ht.nvm, ht.log]
    simpa using h.done_iff
  boundary s ra h := detection_boundary ra h
  commitResult s ra result h := detection_commitResult ra result h
  halt s ra h hdone := detection_halt ra h hdone
  resume s h := ⟨by simpa using h.done_iff, h.idle, fun hnot => h.flag (by simpa using hnot)⟩
  crt s h := ⟨by simpa using h.done_iff, h.idle, fun hnot => h.flag (by simpa using hnot)⟩
  boundaryRet s h := ⟨by simpa using h.done_iff, h.idle, fun hnot => h.flag (by simpa using hnot)⟩
  commitRet s h := ⟨h.done_iff, h.idle, h.flag⟩
  swbor s h := detection_boot ⟨h.done_iff, h.idle, h.outside⟩
  start s h := detection_boot ⟨h.done_iff, h.idle, h.outside⟩

/-- **When a mid-region failure is detected.** In every run of every build, with power failures
anywhere: a failure that strikes inside a region, before its next boundary or the final result
record is completed, is reported by the next boot, which never resumes, exactly if it does not
strike `bench_commit_result` between the write that clears the in-region flag and the write that
sets `__nvm_done`. -/
theorem violation_reported_iff {c : Config} (hc : Reachable B c) (hmid : MidRegion c.s.log) :
    (∀ t, Fails B c.s t → Reported B t) ↔ ¬InWindow c.s.log := by
  have hcrash : DetectionCrash c.s := (Outline.reachable (O := detection B) hc).crash
  have hdone : c.s.nvm .done ≠ 1 := fun h => hmid.2 (hcrash.done_iff.mp h)
  constructor
  · intro hrep hwin
    refine not_reported_of_flag ?_ ?_ (hrep _ (fails_failed B c.s))
    · exact hcrash.window hwin
    · exact hdone
  · intro hnot t ht
    refine reported_of_flag ⟨?_, ?_⟩
    · rw [ht.nvm, hcrash.flag hmid hnot]
      decide
    · rw [ht.nvm]
      exact hdone

/-- A failure in user code, after the cold start, is reported. -/
theorem violation_reported_iff_user :
    ∃ c, Reachable milpWait c ∧ MidRegion c.s.log ∧
      ∀ t, Fails milpWait c.s t → Reported milpWait t := by
  refine ⟨_, coldBooted_reachable, ?_, ?_⟩
  · exact ⟨rfl, by decide⟩
  · exact (violation_reported_iff coldBooted_reachable ⟨rfl, by decide⟩).mpr
      fun hwin => absurd hwin.1 (by decide)

/-- **A failure that goes unnoticed.** User code calls a boundary that returns to `0x5000`, goes on,
and calls `bench_commit_result`; the power fails after the in-region flag is cleared. The next boot
resumes at `0x5000` and no violation is recorded. -/
theorem silent_reexecution :
    ∃ c t c', Reachable milpWait c ∧ MidRegion c.s.log ∧ Fails milpWait c.s t ∧
      Relation.ReflTransGen (Step milpWait) ⟨.before .boot (boot milpWait), t⟩ c' ∧
      c'.ctl = .user 0x5000 ∧ c'.s.nvm .violation = 0 := by
  have hcalled := coldBooted_reachable.step (.callBoundary _ _ 0x5000)
  have hreturned := (hcalled.advance 19).step (.boundaryRet _)
  have hcleared := (hreturned.step (.callCommitResult _ _ 0x5100 7)).advance 1
  exact ⟨_, _, _, hcleared, ⟨rfl, by decide⟩, fails_failed _ _,
    (CodeRun.steps (advance_run milpWait 14 _ _)).tail (.resume _), rfl, rfl⟩

end Bao.Runtime
