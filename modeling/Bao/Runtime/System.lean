import Bao.Runtime.Boot

/-!
# The device under intermittent power

The routines of `Boot.lean` run as parts of a system. User code is arbitrary: it may change the
registers and the memory in any way, and it calls `__region_boundary`, `bench_commit_result` and,
after the result is recorded, `bench_halt`; it does not write the `.nvm` words. A power failure
may strike at any point. It keeps the `.nvm` words and FRAM, loses the registers and SRAM, and
the next boot starts with `SP` at `__stack`.

An `Outline` annotates the system with a crash condition, assertions at the labels of the boot
code, postconditions of the routines' exits and an invariant of user code, together with the
proofs that the routines meet them. `Outline.reachable` is the invariant rule: the annotations hold
in every state of every run.
-/

namespace Bao.Runtime

open Machine (Code Semantics Point CodeStep CodeRun)

/-- Whose code is running. -/
inductive Who
  | boot
  | boundary
  | commitResult
  | halt
  deriving DecidableEq, Repr

/-- Where the device is: in a routine, or in user code. -/
inductive Control
  | code (w : Who) (p : Point Op Cond Label Exit)
  | user (a : Word)

/-- A configuration of the device. -/
structure Config where
  ctl : Control
  s : State

/-- In front of some code of a routine. -/
def Control.before (w : Who) (k : Routine) : Control := .code w (.before k)

/-- What a power failure leaves. -/
structure Fails (B : Build) (s t : State) : Prop where
  nvm : t.nvm = s.nvm
  log : t.log = .failed :: s.log
  sp : t.reg SP = B.variant.stackTop
  mem : ∀ a, inSram a = false → t.mem a = s.mem a

/-- What user code may change. -/
structure UserStep (s t : State) : Prop where
  nvm : t.nvm = s.nvm
  log : t.log = s.log

/-- A step of the device. -/
inductive Step (B : Build) : Config → Config → Prop
  | code {w p s q t} (h : CodeStep B.sem p s q t) : Step B ⟨.code w p, s⟩ ⟨.code w q, t⟩
  | resume (s) : Step B ⟨.before .boot (.exit .ret), s⟩
      ⟨.user s.top, s.drop.note (.resumed s.top (s.reg SP + 2))⟩
  | crt (s) : Step B ⟨.before .boot (.exit .crt), s⟩ ⟨.user B.crtEntry, s.note .coldStarted⟩
  | boundaryRet (s) : Step B ⟨.before .boundary (.exit .ret), s⟩
      ⟨.user s.top, s.drop.note .continued⟩
  | commitRet (s) : Step B ⟨.before .commitResult (.exit .ret), s⟩ ⟨.user s.top, s.drop⟩
  | swbor (s) : Step B ⟨.before .boundary (.exit .swbor), s⟩
      ⟨.before .boot (boot B), s.setReg SP B.variant.stackTop⟩
  | start (s) : Step B ⟨.before .boundary (.exit .start), s⟩
      ⟨.before .boot (boot B), s.setReg SP B.variant.stackTop⟩
  | user (a a') {s t} (h : UserStep s t) : Step B ⟨.user a, s⟩ ⟨.user a', t⟩
  | callBoundary (a s ra) : Step B ⟨.user a, s⟩
      ⟨.before .boundary (regionBoundary B), (s.pushWord ra).note (.called ra (s.reg SP))⟩
  | callCommitResult (a s ra result) : Step B ⟨.user a, s⟩
      ⟨.before .commitResult (benchCommitResult result), s.pushWord ra⟩
  | callHalt (a s ra) (h : s.nvm .done = 1) : Step B ⟨.user a, s⟩
      ⟨.before .halt benchHalt, s.pushWord ra⟩
  | fail (c) {t} (h : Fails B c.s t) : Step B c ⟨.before .boot (boot B), t⟩

/-- The first boot after flashing, which zeroes `.nvm`. -/
structure Initial (B : Build) (c : Config) : Prop where
  ctl : c.ctl = .before .boot (boot B)
  nvm : ∀ x, c.s.nvm x = 0
  log : c.s.log = []
  sp : c.s.reg SP = B.variant.stackTop

/-- The configurations of all runs, with power failures anywhere. -/
def Reachable (B : Build) (c : Config) : Prop :=
  ∃ c₀, Initial B c₀ ∧ Relation.ReflTransGen (Step B) c₀ c

/-! ### Proof outlines -/

/-- **An annotated system**: the crash condition, the assertions at the labels, the
postconditions of the exits and the invariant of user code, with the proofs that the routines
meet them. -/
structure Outline (B : Build) where
  crash : State → Prop
  assert : Label → State → Prop
  exit : Who → Exit → State → Prop
  user : State → Prop
  user_crash : ∀ s, user s → crash s
  user_step : ∀ s t, user s → UserStep s t → user t
  initial : ∀ s, (∀ x, s.nvm x = 0) → s.log = [] → s.reg SP = B.variant.stackTop →
    (boot B).wp B.sem crash assert (exit .boot) s
  reboot : ∀ s t, crash s → Fails B s t → (boot B).wp B.sem crash assert (exit .boot) t
  boundary : ∀ s ra, user s → (regionBoundary B).wp B.sem crash assert (exit .boundary)
    ((s.pushWord ra).note (.called ra (s.reg SP)))
  commitResult : ∀ s ra result, user s →
    (benchCommitResult result).wp B.sem crash assert (exit .commitResult) (s.pushWord ra)
  halt : ∀ s ra, user s → s.nvm .done = 1 →
    benchHalt.wp B.sem crash assert (exit .halt) (s.pushWord ra)
  resume : ∀ s, exit .boot .ret s → user (s.drop.note (.resumed s.top (s.reg SP + 2)))
  crt : ∀ s, exit .boot .crt s → user (s.note .coldStarted)
  boundaryRet : ∀ s, exit .boundary .ret s → user (s.drop.note .continued)
  commitRet : ∀ s, exit .commitResult .ret s → user s.drop
  swbor : ∀ s, exit .boundary .swbor s →
    (boot B).wp B.sem crash assert (exit .boot) (s.setReg SP B.variant.stackTop)
  start : ∀ s, exit .boundary .start s →
    (boot B).wp B.sem crash assert (exit .boot) (s.setReg SP B.variant.stackTop)

namespace Outline

variable {B : Build} (O : Outline B)

/-- The annotation at a configuration. -/
def Ok (c : Config) : Prop :=
  match c.ctl with
  | .code w p => p.Ok B.sem O.crash O.assert (O.exit w) c.s
  | .user _ => O.user c.s

variable {O}

/-- The crash condition holds everywhere. -/
theorem Ok.crash {c : Config} (h : O.Ok c) : O.crash c.s := by
  obtain ⟨ctl, s⟩ := c
  cases ctl with
  | code w p => exact Point.Ok.crash h
  | user a => exact O.user_crash s h

/-- **One step** keeps the annotations. -/
theorem Ok.step {c c' : Config} (h : O.Ok c) (hstep : Step B c c') : O.Ok c' := by
  cases hstep with
  | code hcode => exact Point.Ok.step h hcode
  | resume s => exact O.resume s h.2
  | crt s => exact O.crt s h.2
  | boundaryRet s => exact O.boundaryRet s h.2
  | commitRet s => exact O.commitRet s h.2
  | swbor s => exact O.swbor s h.2
  | start s => exact O.start s h.2
  | user a a' huser => exact O.user_step _ _ h huser
  | callBoundary a s ra => exact O.boundary s ra h
  | callCommitResult a s ra result => exact O.commitResult s ra result h
  | callHalt a s ra hdone => exact O.halt s ra h hdone
  | fail c hfail => exact O.reboot _ _ h.crash hfail

theorem Ok.steps {c c' : Config} (h : O.Ok c) (hsteps : Relation.ReflTransGen (Step B) c c') :
    O.Ok c' := by
  induction hsteps with
  | refl => exact h
  | tail _ hstep ih => exact ih.step hstep

/-- **The invariant rule**: the annotations hold in every run. -/
theorem reachable {c : Config} (h : Reachable B c) : O.Ok c := by
  obtain ⟨⟨ctl, s⟩, ⟨rfl, hnvm, hlog, hsp⟩, hsteps⟩ := h
  have hok : O.Ok ⟨.before .boot (boot B), s⟩ := O.initial s hnvm hlog hsp
  exact hok.steps hsteps

end Outline

/-- Code steps of a routine are steps of the device. -/
theorem CodeRun.steps {B : Build} {w : Who} {p q : Point Op Cond Label Exit} {s t : State}
    (h : CodeRun B.sem p s q t) :
    Relation.ReflTransGen (Step B) ⟨.code w p, s⟩ ⟨.code w q, t⟩ := by
  induction h with
  | refl p s => exact .refl
  | head hstep _ ih => exact .head (.code hstep) ih

/-! ### Running code -/

/-- Run code for some steps, up to an exit, with calls of `wait_until_vcc_full` that return at
once. -/
def advance (B : Build) : ℕ → Point Op Cond Label Exit → State → Point Op Cond Label Exit × State
  | 0, p, s => (p, s)
  | n + 1, .before (.seq o k), s => advance B n (.before k) (o.exec s)
  | n + 1, .before (.label _ k), s => advance B n (.before k) s
  | n + 1, .before (.ite c yes no), s =>
    if c.holds s then advance B n (.before yes) s else advance B n (.before no) s
  | n + 1, .before (.call k), s => advance B n (.inCall k) (s.pushWord B.waitReturn)
  | _ + 1, .before (.exit e), s => (.before (.exit e), s)
  | n + 1, .inCall k, s => advance B n (.before k) s.drop

theorem advance_run (B : Build) (n : ℕ) (p : Point Op Cond Label Exit) (s : State) :
    CodeRun B.sem p s (advance B n p s).1 (advance B n p s).2 := by
  fun_induction advance B n p s with
  | case1 p s => exact .refl p s
  | case2 n o k s ih => exact .head (.seq o k s) ih
  | case3 n l k s ih => exact .head (.label l k s) ih
  | case4 n c yes no s hc ih => exact .head (.yes c yes no s hc) ih
  | case5 n c yes no s hc ih => exact .head (.no c yes no s (Bool.eq_false_iff.mpr hc)) ih
  | case6 n k s ih => exact .head (.enter k s) ih
  | case7 n e s => exact .refl _ s
  | case8 n k s ih => exact .head (.leave k s s.drop rfl) ih

/-- A routine of a reachable configuration may run on. -/
theorem Reachable.advance {B : Build} {w : Who} {p : Point Op Cond Label Exit} {s : State}
    (h : Reachable B ⟨.code w p, s⟩) (n : ℕ) :
    Reachable B ⟨.code w (Runtime.advance B n p s).1, (Runtime.advance B n p s).2⟩ := by
  obtain ⟨c₀, hinit, hsteps⟩ := h
  exact ⟨c₀, hinit, hsteps.trans (CodeRun.steps (advance_run B n p s))⟩

theorem Reachable.step {B : Build} {c c' : Config} (h : Reachable B c) (hstep : Step B c c') :
    Reachable B c' := by
  obtain ⟨c₀, hinit, hsteps⟩ := h
  exact ⟨c₀, hinit, hsteps.tail hstep⟩

/-- A MILP build in wait mode. -/
def milpWait : Build where
  variant := .milp
  haltMode := .wait
  deviceDebug := false
  crtEntry := 0x4800
  waitReturn := 0x4810
  waitDepth := 16

/-- A freshly flashed device. -/
def flashed (B : Build) : State where
  reg r := if r = SP then B.variant.stackTop else 0
  carry := false
  mem _ := 0
  nvm _ := 0
  log := []

theorem flashed_reachable (B : Build) : Reachable B ⟨.before .boot (boot B), flashed B⟩ :=
  ⟨_, ⟨rfl, fun _ => rfl, rfl, rfl⟩, .refl⟩

/-- The state of `milpWait` when its first boot hands over to the CRT. -/
def coldBooted : State := (advance milpWait 12 (.before (boot milpWait)) (flashed milpWait)).2

theorem coldBooted_reachable :
    Reachable milpWait ⟨.user milpWait.crtEntry, coldBooted.note .coldStarted⟩ :=
  ((flashed_reachable milpWait).advance 12).step (.crt coldBooted)

/-- What a power failure leaves of a state whose memory survives. -/
def failed (B : Build) (s : State) : State :=
  { s.setReg SP B.variant.stackTop with log := .failed :: s.log }

theorem fails_failed (B : Build) (s : State) : Fails B s (failed B s) :=
  ⟨rfl, rfl, by simp [failed], fun _ _ => rfl⟩

end Bao.Runtime
