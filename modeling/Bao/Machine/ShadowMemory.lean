import Mathlib.Data.List.Basic
import Mathlib.Logic.Function.Basic

/-!
# Two copies of every variable

A program whose variables have an NVM copy and a volatile shadow. Every access goes to one of the
copies; at a boundary some shadows are saved to NVM, power may be lost, which leaves arbitrary bytes
in the shadows, and some shadows are restored. The reference run of the same events has one copy.

Which bytes are **up to date** in which copy follows from the events alone (`Status`): a store
brings the bytes it writes up to date in its copy and outdates them in the other one, a save and a
restore hand the status of one copy to the other, and a power loss outdates all shadows. No value is
compared. A run that loads and saves bytes only that are up to date is indistinguishable from the
reference run (`Agree.run`).

A program need not track bytes for that. If every stretch of the run keeps each variable in one
copy, and fills a shadow before it uses it, every object is where the stretch looks for it
(`Located`), and what the stretch does is careful (`Located.accesses`, `Located.checkpoint`,
`Located.frame`).
-/

namespace Bao.Machine.ShadowMemory

/-! ### Memory -/

/-- The contents of the variables, byte by byte. -/
abbrev Memory (ν : Type) := ν → ℕ → UInt8

/-- `len` bytes of an object. -/
def read (m : ℕ → UInt8) (offset len : ℕ) : List UInt8 :=
  (List.range len).map fun i => m (offset + i)

/-- An object with `len` bytes overwritten. -/
def write (m : ℕ → UInt8) (offset len : ℕ) (bytes : ℕ → UInt8) : ℕ → UInt8 := fun i =>
  if offset ≤ i ∧ i < offset + len then bytes (i - offset) else m i

/-- Reading agrees where the objects do. -/
theorem read_congr {m m' : ℕ → UInt8} {offset len : ℕ}
    (h : ∀ i, offset ≤ i → i < offset + len → m i = m' i) :
    read m offset len = read m' offset len := by
  refine List.map_congr_left fun i hi => h _ ?_ ?_
  · omega
  · have := List.mem_range.mp hi
    omega

/-! ### Events -/

/-- A copy of a variable. -/
inductive Copy
  | nvm
  | shadow
deriving DecidableEq

/-- An access of `len` bytes; the program state says where in the object. A load hands the bytes to
the program, a store takes them from it. -/
inductive Access (ν σ : Type)
  | load (v : ν) (len : ℕ) (offset : σ → ℕ) (k : σ → List UInt8 → σ)
  | store (v : ν) (len : ℕ) (offset : σ → ℕ) (bytes : σ → ℕ → UInt8)

/-- The variable of an access. -/
def Access.target {ν σ : Type} : Access ν σ → ν
  | .load v .. => v
  | .store v .. => v

/-- The access stays inside its object. -/
def Access.Inside {ν σ : Type} (size : ν → ℕ) (s : σ) : Access ν σ → Prop
  | .load v len offset _ => offset s + len ≤ size v
  | .store v len offset _ => offset s + len ≤ size v

/-- The access is a store of the whole object. -/
def Access.coversObject {ν σ : Type} (size : ν → ℕ) (s : σ) : Access ν σ → Bool
  | .load .. => false
  | .store v len offset _ => offset s = 0 ∧ len = size v

/-- What a run does: an access to one of the copies, which the pointer decides; the saves before a
boundary, a power loss, and the restores after a boundary, each with the number of bytes it copies
of an object; and the start or the end of a call, whose stack slots hold contents that the program
has not defined. -/
inductive MemoryEvent (ν σ : Type)
  | access (c : σ → Copy) (a : Access ν σ)
  | save (vs : List ν) (len : ν → ℕ)
  | lose (junk : Memory ν)
  | restore (vs : List ν) (len : ν → ℕ)
  | frame (vs : List ν) (slots : Memory ν)

/-- What can be seen of a run: the bytes of a load, and the object a save has left in NVM. -/
inductive Observation (ν : Type)
  | loaded (v : ν) (bytes : List UInt8)
  | saved (v : ν) (bytes : List UInt8)
deriving DecidableEq

variable {ν σ : Type} [DecidableEq ν] (size : ν → ℕ)

/-- The run without instrumentation. At a save it shows the current contents of the variable. -/
structure Reference (ν σ : Type) where
  state : σ
  mem : Memory ν
  trace : List (Observation ν)

/-- The run with both copies. -/
structure Shadowed (ν σ : Type) where
  state : σ
  copy : Copy → Memory ν
  trace : List (Observation ν)

/-- Two memories as the copies of the variables. -/
def copies (nvm shadow : Memory ν) : Copy → Memory ν
  | .nvm => nvm
  | .shadow => shadow

/-- One event of the reference run. -/
def Reference.step (u : Reference ν σ) : MemoryEvent ν σ → Reference ν σ
  | .access _ (.load v len offset k) =>
    let bytes := read (u.mem v) (offset u.state) len
    { u with state := k u.state bytes, trace := u.trace ++ [.loaded v bytes] }
  | .access _ (.store v len offset bytes) =>
    { u with mem :=
        Function.update u.mem v (write (u.mem v) (offset u.state) len (bytes u.state)) }
  | .save vs _ =>
    { u with trace := u.trace ++ vs.map fun v => .saved v (read (u.mem v) 0 (size v)) }
  | .lose _ => u
  | .restore .. => u
  | .frame vs slots => { u with mem := fun v => if v ∈ vs then slots v else u.mem v }

/-- Bytes of some variables are copied from one copy to the other. -/
def transfer (vs : List ν) (len : ν → ℕ) (source target : Memory ν) : Memory ν := fun v =>
  if v ∈ vs then write (target v) 0 (len v) (source v) else target v

/-- One event of the run with both copies. -/
def Shadowed.step (i : Shadowed ν σ) : MemoryEvent ν σ → Shadowed ν σ
  | .access c (.load v len offset k) =>
    let bytes := read (i.copy (c i.state) v) (offset i.state) len
    { i with state := k i.state bytes, trace := i.trace ++ [.loaded v bytes] }
  | .access c (.store v len offset bytes) =>
    let copy := i.copy (c i.state)
    let object := write (copy v) (offset i.state) len (bytes i.state)
    { i with copy := Function.update i.copy (c i.state) (Function.update copy v object) }
  | .save vs len =>
    let nvm := transfer vs len (i.copy .shadow) (i.copy .nvm)
    { i with
      copy := Function.update i.copy .nvm nvm
      trace := i.trace ++ vs.map fun v => .saved v (read (nvm v) 0 (size v)) }
  | .lose junk => { i with copy := Function.update i.copy .shadow junk }
  | .restore vs len =>
    let shadow := transfer vs len (i.copy .nvm) (i.copy .shadow)
    { i with copy := Function.update i.copy .shadow shadow }
  | .frame vs slots =>
    let nvm := fun v => if v ∈ vs then slots v else i.copy .nvm v
    { i with copy := Function.update i.copy .nvm nvm }

/-- The reference run of some events. -/
def Reference.run (u : Reference ν σ) (events : List (MemoryEvent ν σ)) : Reference ν σ :=
  events.foldl (Reference.step size) u

/-- The run of some events with both copies. -/
def Shadowed.run (i : Shadowed ν σ) (events : List (MemoryEvent ν σ)) : Shadowed ν σ :=
  events.foldl (Shadowed.step size) i

/-- Every access of the reference run stays inside its object. -/
def Reference.InsideRun (u : Reference ν σ) : List (MemoryEvent ν σ) → Prop
  | [] => True
  | e :: events =>
    (match e with
      | .access _ a => a.Inside size u.state
      | _ => True) ∧ InsideRun (u.step size e) events

theorem Reference.insideRun_append {u : Reference ν σ} {events events' : List (MemoryEvent ν σ)} :
    u.InsideRun size (events ++ events') ↔
      u.InsideRun size events ∧ (u.run size events).InsideRun size events' := by
  induction events generalizing u with
  | nil => exact (true_and _).symm.to_iff
  | cons e events ih => simp only [List.cons_append, InsideRun, ih, and_assoc]; rfl

/-! ### Bytes that are up to date -/

/-- The bytes that are up to date in a copy. -/
abbrev Status (ν : Type) := Copy → ν → ℕ → Bool

namespace Status

/-- How an event changes the status; `s` is the program state before it. -/
def step (st : Status ν) (s : σ) : MemoryEvent ν σ → Status ν
  | .access _ (.load ..) => st
  | .access c (.store v len offset _) => fun c' v' k =>
    if v' = v ∧ offset s ≤ k ∧ k < offset s + len then decide (c' = c s) else st c' v' k
  | .save vs len => fun c v k =>
    match c with
    | .nvm => if v ∈ vs ∧ k < len v then st .shadow v k else st .nvm v k
    | .shadow => st .shadow v k
  | .lose _ => fun c v k =>
    match c with
    | .nvm => st .nvm v k
    | .shadow => false
  | .restore vs len => fun c v k =>
    match c with
    | .nvm => st .nvm v k
    | .shadow => if v ∈ vs ∧ k < len v then st .nvm v k else st .shadow v k
  | .frame vs _ => fun c v k => if v ∈ vs then decide (c = .nvm) else st c v k

/-- The status after some events; `u` is the reference run before them. -/
def run (st : Status ν) (u : Reference ν σ) : List (MemoryEvent ν σ) → Status ν
  | [] => st
  | e :: events => (st.step u.state e).run (u.step size e) events

/-- The event loads bytes only that are up to date, and saves leave objects that are. -/
def Careful (st : Status ν) (s : σ) : MemoryEvent ν σ → Prop
  | .access c (.load v len offset _) => ∀ k, offset s ≤ k → k < offset s + len → st (c s) v k = true
  | .access _ (.store ..) => True
  | .save vs len => ∀ v ∈ vs, ∀ k < size v,
    (if k < len v then st .shadow v k else st .nvm v k) = true
  | .lose _ => True
  | .restore .. => True
  | .frame .. => True

/-- All events of a run are careful. -/
def CarefulRun (st : Status ν) (u : Reference ν σ) : List (MemoryEvent ν σ) → Prop
  | [] => True
  | e :: events => st.Careful size u.state e ∧
      CarefulRun (st.step u.state e) (u.step size e) events

theorem run_append (st : Status ν) (u : Reference ν σ) (events events' : List (MemoryEvent ν σ)) :
    st.run size u (events ++ events') =
      (st.run size u events).run size (u.run size events) events' := by
  induction events generalizing st u with
  | nil => rfl
  | cons e events ih => exact ih _ _

theorem carefulRun_append {st : Status ν} {u : Reference ν σ}
    {events events' : List (MemoryEvent ν σ)} :
    st.CarefulRun size u (events ++ events') ↔ st.CarefulRun size u events ∧
      (st.run size u events).CarefulRun size (u.run size events) events' := by
  induction events generalizing st u with
  | nil => exact (true_and _).symm.to_iff
  | cons e events ih => simp only [List.cons_append, CarefulRun, ih, and_assoc]; rfl

/-- When a program starts, its variables are in NVM. -/
def initial : Status ν := fun c _ _ => decide (c = .nvm)

end Status

/-- **The two runs agree**: same program state, same observations, and every byte that is up to date
in a copy is the one of the reference run. -/
structure Agree (st : Status ν) (u : Reference ν σ) (i : Shadowed ν σ) : Prop where
  state : i.state = u.state
  trace : i.trace = u.trace
  current : ∀ c v k, st c v k = true → i.copy c v k = u.mem v k

namespace Agree

variable {size} {st : Status ν} {u : Reference ν σ} {i : Shadowed ν σ}

omit [DecidableEq ν] in
theorem init (s : σ) (mem shadow : Memory ν) :
    Agree Status.initial ⟨s, mem, []⟩ ⟨s, copies mem shadow, []⟩ where
  state := rfl
  trace := rfl
  current c v k hc := by
    cases c with
    | nvm => rfl
    | shadow => simp [Status.initial] at hc

/-- A load of bytes that are up to date. -/
private theorem load (h : Agree st u i) {c : σ → Copy} {v : ν} {len : ℕ} {offset : σ → ℕ}
    (hc : ∀ k, offset u.state ≤ k → k < offset u.state + len → st (c u.state) v k = true)
    (k : σ → List UInt8 → σ) :
    Agree st (u.step size (.access c (.load v len offset k)))
      (i.step size (.access c (.load v len offset k))) := by
  have hbytes : read (i.copy (c u.state) v) (offset u.state) len =
      read (u.mem v) (offset u.state) len :=
    read_congr fun j hle hlt => h.current _ v j (hc j hle hlt)
  refine ⟨?_, ?_, h.current⟩
  · simp only [Shadowed.step, Reference.step, h.state, hbytes]
  · simp only [Shadowed.step, Reference.step, h.state, hbytes, h.trace]

/-- A store to one of the copies. -/
private theorem store (h : Agree st u i) (c : σ → Copy) (v : ν) (len : ℕ) (offset : σ → ℕ)
    (bytes : σ → ℕ → UInt8) :
    Agree (st.step u.state (.access c (.store v len offset bytes)))
      (u.step size (.access c (.store v len offset bytes)))
      (i.step size (.access c (.store v len offset bytes))) := by
  refine ⟨h.state, h.trace, fun c' v' k hc' => ?_⟩
  simp only [Status.step] at hc'
  simp only [Shadowed.step, Reference.step]
  by_cases hv : v' = v
  · subst hv
    split_ifs at hc' with hin
    · -- a byte that the store writes
      obtain rfl := of_decide_eq_true hc'
      simp [write, h.state, hin.2]
    · have hout : ¬(offset u.state ≤ k ∧ k < offset u.state + len) := fun hk => hin ⟨rfl, hk⟩
      by_cases hcc : c' = c u.state
      · subst hcc
        simp only [Function.update_self, write, h.state, if_neg hout]
        exact h.current _ v' k hc'
      · simp only [h.state, Function.update_of_ne hcc, Function.update_self, write, if_neg hout]
        exact h.current c' v' k hc'
  · rw [if_neg fun hin => hv hin.1] at hc'
    rw [Function.update_of_ne hv, h.state]
    by_cases hcc : c' = c u.state
    · subst hcc
      rw [Function.update_self, Function.update_of_ne hv]
      exact h.current _ v' k hc'
    · rw [Function.update_of_ne hcc]
      exact h.current c' v' k hc'

/-- What a transfer leaves in the target. -/
private theorem transfer_apply (vs : List ν) (len : ν → ℕ) (source target : Memory ν) (v : ν)
    (k : ℕ) :
    transfer vs len source target v k =
      if v ∈ vs ∧ k < len v then source v k else target v k := by
  by_cases hv : v ∈ vs
  · simp [transfer, write, hv]
  · simp [transfer, hv]

/-- The saves before a boundary. -/
private theorem save (h : Agree st u i) {vs : List ν} {len : ν → ℕ}
    (hvs : st.Careful size u.state (.save vs len : MemoryEvent ν σ)) :
    Agree (st.step u.state (.save vs len)) (u.step size (.save vs len))
      (i.step size (.save vs len)) := by
  have hnvm : ∀ v k, (if v ∈ vs ∧ k < len v then st .shadow v k else st .nvm v k) = true →
      transfer vs len (i.copy .shadow) (i.copy .nvm) v k = u.mem v k := by
    intro v k hv
    rw [transfer_apply]
    split_ifs at hv ⊢
    · exact h.current .shadow v k hv
    · exact h.current .nvm v k hv
  refine ⟨h.state, ?_, fun c v k hc => ?_⟩
  · simp only [Shadowed.step, Reference.step, h.trace]
    congr 1
    refine List.map_congr_left fun v hv => ?_
    rw [read_congr fun k _ hk => hnvm v k ?_]
    simpa [hv] using hvs v hv k (by omega)
  · cases c with
    | nvm => exact hnvm v k hc
    | shadow => exact h.current .shadow v k hc

/-- A power loss. -/
private theorem lose (h : Agree st u i) (junk : Memory ν) :
    Agree (st.step u.state (.lose junk)) (u.step size (.lose junk))
      (i.step size (.lose junk)) := by
  refine ⟨h.state, h.trace, fun c v k hc => ?_⟩
  cases c with
  | nvm => exact h.current .nvm v k hc
  | shadow => cases hc

/-- The restores after a boundary. -/
private theorem restore (h : Agree st u i) (vs : List ν) (len : ν → ℕ) :
    Agree (st.step u.state (.restore vs len)) (u.step size (.restore vs len))
      (i.step size (.restore vs len)) := by
  refine ⟨h.state, h.trace, fun c v k hc => ?_⟩
  cases c with
  | nvm => exact h.current .nvm v k hc
  | shadow =>
    simp only [Status.step] at hc
    change transfer vs len (i.copy .nvm) (i.copy .shadow) v k = u.mem v k
    rw [transfer_apply]
    split_ifs at hc ⊢
    · exact h.current .nvm v k hc
    · exact h.current .shadow v k hc

/-- The start or the end of a call. -/
private theorem frame (h : Agree st u i) (vs : List ν) (slots : Memory ν) :
    Agree (st.step u.state (.frame vs slots)) (u.step size (.frame vs slots))
      (i.step size (.frame vs slots)) := by
  refine ⟨h.state, h.trace, fun c v k hc => ?_⟩
  simp only [Status.step] at hc
  simp only [Shadowed.step, Reference.step]
  by_cases hv : v ∈ vs
  · rw [if_pos hv] at hc
    obtain rfl := of_decide_eq_true hc
    simp [hv]
  · rw [if_neg hv] at hc
    rw [if_neg hv]
    cases c with
    | nvm => simpa [hv] using h.current .nvm v k hc
    | shadow => exact h.current .shadow v k hc

/-- **One careful event** keeps the runs in agreement. -/
theorem step (h : Agree st u i) {e : MemoryEvent ν σ} (he : st.Careful size u.state e) :
    Agree (st.step u.state e) (u.step size e) (i.step size e) := by
  cases e with
  | access c a =>
    cases a with
    | load v len offset k => exact h.load he k
    | store v len offset bytes => exact h.store c v len offset bytes
  | save vs len => exact h.save he
  | lose junk => exact h.lose junk
  | restore vs len => exact h.restore vs len
  | frame vs slots => exact h.frame vs slots

/-- **A careful run** is indistinguishable from the reference run. -/
theorem run {events : List (MemoryEvent ν σ)} (h : Agree st u i)
    (hcareful : st.CarefulRun size u events) :
    (i.run size events).trace = (u.run size events).trace ∧
      (i.run size events).state = (u.run size events).state := by
  induction events generalizing st u i with
  | nil => exact ⟨h.trace, h.state⟩
  | cons e events ih => exact ih (h.step hcareful.1) hcareful.2

end Agree

/-! ### Regions -/

/-- The variables that the current region has in their shadows: those restored at its start, and
those of which it has stored the whole object since. -/
abbrev Filled (ν : Type) := ν → Bool

namespace Filled

/-- How an event changes what is filled; `s` is the program state before it. -/
def step (filled : Filled ν) (s : σ) : MemoryEvent ν σ → Filled ν
  | .access c a => fun v =>
    filled v || decide (v = a.target ∧ c s = .shadow) && a.coversObject size s
  | .save .. => filled
  | .lose _ => fun _ => false
  | .restore vs _ => fun v => v ∈ vs
  | .frame vs _ => fun v => filled v && v ∉ vs

/-- What is filled after some events; `u` is the reference run before them. -/
def run (filled : Filled ν) (u : Reference ν σ) : List (MemoryEvent ν σ) → Filled ν
  | [] => filled
  | e :: events => (filled.step size u.state e).run (u.step size e) events

theorem run_append (filled : Filled ν) (u : Reference ν σ)
    (events events' : List (MemoryEvent ν σ)) :
    filled.run size u (events ++ events') =
      (filled.run size u events).run size (u.run size events) events' := by
  induction events generalizing filled u with
  | nil => rfl
  | cons e events ih => exact ih _ _

end Filled

/-- The access goes to the copy that the region keeps, and a shadow is filled before it is used,
except by a store of the whole object. -/
def Access.Kept (kept : ν → Copy) (filled : Filled ν) (s : σ) (c : σ → Copy) (a : Access ν σ) :
    Prop :=
  c s = kept a.target ∧
    (kept a.target = .shadow → filled a.target = true ∨ a.coversObject size s = true)

/-- The events of some accesses through pointers. -/
def accessEvents (accesses : List ((σ → Copy) × Access ν σ)) : List (MemoryEvent ν σ) :=
  accesses.map fun p => .access p.1 p.2

/-- All accesses of a block go where the region keeps their variables. -/
def AccessesKept (kept : ν → Copy) (filled : Filled ν) (u : Reference ν σ) :
    List ((σ → Copy) × Access ν σ) → Prop
  | [] => True
  | p :: accesses => p.2.Kept size kept filled u.state p.1 ∧
      AccessesKept kept (filled.step size u.state (.access p.1 p.2))
        (u.step size (.access p.1 p.2)) accesses

/-- The events of a checkpoint, with or without a power loss. -/
def checkpointEvents (len : ν → ℕ) (saves restores : List ν) (loss : Option (Memory ν)) :
    List (MemoryEvent ν σ) :=
  .save saves len :: ((loss.map MemoryEvent.lose).toList ++ [.restore restores len])

/-- Where the current contents of a variable are found. -/
def home (kept : ν → Copy) (filled : Filled ν) (v : ν) : Copy :=
  if filled v then kept v else .nvm

/-- **Every object is at home.** -/
def Located (st : Status ν) (kept : ν → Copy) (filled : Filled ν) : Prop :=
  ∀ v, ∀ k < size v, st (home kept filled v) v k = true

namespace Located

variable {size} {st : Status ν} {kept kept' : ν → Copy} {filled : Filled ν}

omit [DecidableEq ν] in
/-- When a program starts. -/
theorem init (kept : ν → Copy) : Located size Status.initial kept fun _ => false :=
  fun _ _ _ => rfl

omit [DecidableEq ν] in
/-- A variable that is not filled may be kept anywhere. -/
theorem congr (h : Located size st kept filled)
    (hkept : ∀ v, filled v = true → kept' v = kept v) : Located size st kept' filled := by
  intro v k hk
  have hhome : home kept' filled v = home kept filled v := by
    rw [home, home]
    split_ifs with hv
    · exact hkept v hv
    · rfl
  exact hhome ▸ h v k hk

omit [DecidableEq ν] in
/-- A filled shadow is the home of its variable. -/
private theorem home_eq {v : ν} (h : kept v = .shadow → filled v = true) :
    home kept filled v = kept v := by
  rw [home]
  split_ifs with hf
  · rfl
  · cases hk : kept v with
    | nvm => rfl
    | shadow => exact absurd (h hk) hf

/-- **An access** that keeps to its region. -/
theorem access (h : Located size st kept filled) {s : σ} {c : σ → Copy} {a : Access ν σ}
    (hin : a.Inside size s) (ha : a.Kept size kept filled s c) :
    st.Careful size s (.access c a) ∧
      Located size (st.step s (.access c a)) kept (filled.step size s (.access c a)) := by
  obtain ⟨hc, hfilled⟩ := ha
  cases a with
  | load v len offset k =>
    have hv : home kept filled v = c s :=
      (home_eq fun hk => (hfilled hk).resolve_right (by simp [Access.coversObject])).trans hc.symm
    refine ⟨fun j _ hj => hv ▸ h v j (Nat.lt_of_lt_of_le hj hin), fun w j hj => ?_⟩
    simpa [Filled.step, Access.coversObject, home, Status.step] using h w j hj
  | store v len offset bytes =>
    refine ⟨trivial, fun w j hj => ?_⟩
    by_cases hw : w = v
    · subst hw
      have hhome : home kept (filled.step size s (.access c (.store w len offset bytes))) w =
          c s := by
        refine (home_eq fun hk => ?_).trans hc.symm
        have hshadow : c s = .shadow := hc.trans hk
        simpa [Filled.step, Access.target, hshadow] using hfilled hk
      rw [hhome]
      simp only [Status.step]
      split_ifs with hin
      · simp
      · -- the store leaves the byte alone, so that it was at home before
        have hold : home kept filled w = c s := by
          have hpartial : ¬(Access.store w len offset bytes).coversObject size s = true := by
            intro hcovers
            obtain ⟨hoffset, hlen⟩ := of_decide_eq_true hcovers
            exact hin ⟨trivial, by omega⟩
          exact (home_eq fun hk => (hfilled hk).resolve_right hpartial).trans hc.symm
        exact hold ▸ h w j hj
    · have hhome : home kept (filled.step size s (.access c (.store v len offset bytes))) w =
          home kept filled w := by
        simp [home, Filled.step, Access.target, hw]
      rw [hhome]
      simp only [Status.step, hw, false_and, if_false]
      exact h w j hj

/-- **The accesses of a block** that keep to its region. -/
theorem accesses {accesses : List ((σ → Copy) × Access ν σ)} {u : Reference ν σ}
    (h : Located size st kept filled) (hinside : u.InsideRun size (accessEvents accesses))
    (haccesses : AccessesKept size kept filled u accesses) :
    st.CarefulRun size u (accessEvents accesses) ∧
      Located size (st.run size u (accessEvents accesses)) kept
        (filled.run size u (accessEvents accesses)) := by
  induction accesses generalizing st filled u with
  | nil => exact ⟨trivial, h⟩
  | cons p accesses ih =>
    obtain ⟨hcareful, hstep⟩ := h.access hinside.1 haccesses.1
    obtain ⟨hrest, hlast⟩ := ih hstep hinside.2 haccesses.2
    exact ⟨⟨hcareful, hrest⟩, hlast⟩

/-- The restores, when all variables are in NVM. -/
private theorem restore (hnvm : ∀ v, ∀ k < size v, st .nvm v k = true) (s : σ) {vs : List ν}
    {len : ν → ℕ} (hlen : ∀ v ∈ vs, len v = size v) (kept : ν → Copy) :
    Located size (st.step s (.restore vs len : MemoryEvent ν σ)) kept fun v => v ∈ vs := by
  intro v k hk
  by_cases hv : v ∈ vs
  · cases hkept : kept v with
    | nvm => simpa [home, Status.step, hkept] using hnvm v k hk
    | shadow => simpa [home, Status.step, hkept, hv, hlen v hv, hk] using hnvm v k hk
  · simpa [home, Status.step, hv] using hnvm v k hk

/-- **A checkpoint** that saves all that the region keeps in its shadows takes every variable home,
wherever the next region keeps it. -/
theorem checkpoint (h : Located size st kept filled) (u : Reference ν σ) {len : ν → ℕ}
    {saves restores : List ν} (loss : Option (Memory ν))
    (hsaves : ∀ v, v ∈ saves ↔ kept v = .shadow) (hfilled : ∀ v, kept v = .shadow → filled v = true)
    (hsaved : ∀ v ∈ saves, len v = size v) (hrestored : ∀ v ∈ restores, len v = size v) :
    st.CarefulRun size u (checkpointEvents len saves restores loss) ∧
      ∀ kept', Located size (st.run size u (checkpointEvents len saves restores loss)) kept'
        (filled.run size u (checkpointEvents len saves restores loss)) := by
  have hhome : ∀ v, ∀ k < size v, st (kept v) v k = true := fun v k hk =>
    home_eq (hfilled v) ▸ h v k hk
  have hcareful : st.Careful size u.state (.save saves len : MemoryEvent ν σ) := by
    intro v hv k hk
    rw [if_pos (hsaved v hv ▸ hk)]
    exact (hsaves v).mp hv ▸ hhome v k hk
  -- the saves bring all objects home to NVM, and neither a loss nor a restore changes that
  have hnvm : ∀ v, ∀ k < size v,
      st.step u.state (.save saves len : MemoryEvent ν σ) .nvm v k = true := by
    intro v k hk
    by_cases hv : v ∈ saves
    · simpa [Status.step, hv] using hcareful v hv k hk
    · cases hkept : kept v with
      | nvm => simpa [Status.step, hv] using hkept ▸ hhome v k hk
      | shadow => exact absurd ((hsaves v).mpr hkept) hv
  cases loss with
  | none => exact ⟨⟨hcareful, trivial, trivial⟩, restore hnvm u.state hrestored⟩
  | some junk =>
    have hlost : ∀ v, ∀ k < size v, ((st.step u.state (.save saves len)).step u.state
        (.lose junk : MemoryEvent ν σ)) .nvm v k = true := hnvm
    exact ⟨⟨hcareful, trivial, trivial, trivial⟩, restore hlost u.state hrestored⟩

/-- **The start or the end of a call** defines the contents of its slots anew, and moves no other
variable. -/
theorem frame (h : Located size st kept filled) (s : σ) {vs : List ν} (slots : Memory ν)
    (hkept : ∀ v ∉ vs, filled v = true → kept' v = kept v) :
    Located size (st.step s (.frame vs slots)) kept'
      (filled.step size s (.frame vs slots : MemoryEvent ν σ)) := by
  have hslots : Located size (st.step s (.frame vs slots : MemoryEvent ν σ)) kept
      (filled.step size s (.frame vs slots : MemoryEvent ν σ)) := by
    intro v k hk
    by_cases hv : v ∈ vs
    · simp [home, Filled.step, Status.step, hv]
    · simpa [home, Filled.step, Status.step, hv] using h v k hk
  refine hslots.congr fun v hfilled => ?_
  obtain ⟨hfilled, hv⟩ := Bool.and_eq_true_iff.mp hfilled
  exact hkept v (of_decide_eq_true hv) hfilled

end Located

end Bao.Machine.ShadowMemory
