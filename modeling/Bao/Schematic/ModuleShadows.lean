import Bao.Schematic.Instrumenter
import Bao.Schematic.VMOffsets

/-!
# VM shadows of a module

All functions of a module share one address tracker. However many intervals are costed, in whatever
order, addresses are never changed, ranges are disjoint and end within the capacity, and what a call
newly puts in VM has an address (`AddressesSound`).

After a function is solved, `createShadowGlobals` gives each variable that it keeps in VM a shadow.
The shadows of a module take at most the capacity if a global has one shadow, and the shadow of a
local is not larger than the local (`shadows_fit_of_keeps`). A global whose shadow cannot have its
own name gets a further shadow from every function (`global_has_two_shadows`).
-/

namespace Bao.Schematic

open Addressing RegionAllocation VMAddressTracker

/-! ### Calls -/

/-- A call of `chooseMemoryAllocation` but for the tracker. -/
structure AllocationCall where
  variableAccesses : ValueMap VariableAccessEstimate
  state : SchematicStateAnalysis
  startAlloc : Option RegionAllocation
  endAlloc : Option RegionAllocation
  memoryAllocations : List RegionAllocation

namespace AllocationCall

/-- The allocation that a call returns, and the tracker it leaves. -/
def choose (params : SchematicParams) (T : VMAddressTracker) (call : AllocationCall) :
    RegionAllocation × VMAddressTracker :=
  let choice := chooseMemoryAllocationOf call.variableAccesses call.state params call.startAlloc
    call.endAlloc call.memoryAllocations T
  (choice.1.1, choice.2)

/-- The tracker after some calls. -/
def trackerAfter (params : SchematicParams) (calls : List AllocationCall) : VMAddressTracker :=
  calls.foldl (fun T call => (call.choose params T).2) {}

/-- One of the allocations that a call is given has the variable in VM. -/
def InputInVM (call : AllocationCall) (v : Value) : Prop :=
  ∃ a, (a ∈ call.startAlloc ∨ a ∈ call.endAlloc ∨ a ∈ call.memoryAllocations) ∧
    ∃ va, a.vars.lookup v = some va ∧ va.placement = .vm

end AllocationCall

open AllocationCall

/-- **The addresses of a sequence of calls** are sound. -/
structure AddressesSound (size : Value → ℕ) (params : SchematicParams)
    (calls : List AllocationCall) :
    Prop where
  /-- Recorded addresses never change. -/
  stable : ∀ l l', l ++ l' = calls → (trackerAfter params l).ExtendedBy (trackerAfter params calls)
  /-- The ranges of two variables are disjoint. -/
  disjoint : ∀ v w x y, v ≠ w → (trackerAfter params calls).getExistingAddress v = some x →
    (trackerAfter params calls).getExistingAddress w = some y → x + size v ≤ y ∨ y + size w ≤ x
  /-- Ranges end within the capacity. -/
  within : ∀ v x, (trackerAfter params calls).getExistingAddress v = some x →
    x + size v ≤ params.vmCapacityBytes
  /-- What a call newly puts in VM has an address. -/
  recorded : ∀ l call l', l ++ call :: l' = calls → ∀ v va,
    (call.choose params (trackerAfter params l)).1.vars.lookup v = some va → va.placement = .vm →
    call.InputInVM v ∨
      ((call.choose params (trackerAfter params l)).2.getExistingAddress v).isSome = true

section Calls

variable {size : Value → ℕ} {params : SchematicParams} (hsize : ∀ v, size v < 2 ^ 31)
  (hcapacity : params.vmCapacityBytes < 2 ^ 31)
include hsize hcapacity

/-- One call. -/
private theorem choose_spec {call : AllocationCall} (hsized : call.state.Sized size)
    {T : VMAddressTracker} (hT : T.Fits size params.vmCapacityBytes) :
    (call.choose params T).2.Fits size params.vmCapacityBytes ∧
      T.ExtendedBy (call.choose params T).2 ∧
      (call.choose params T).1.ForVM fun v _ => call.InputInVM v ∨
        ((call.choose params T).2.getExistingAddress v).isSome = true := by
  have hinput : ∀ a, (a ∈ call.startAlloc ∨ a ∈ call.endAlloc ∨ a ∈ call.memoryAllocations) →
      a.ForVM fun v _ => call.InputInVM v := fun a ha v va hv hvm => ⟨a, ha, va, hv, hvm⟩
  obtain ⟨hfits, hext, hresult⟩ := chooseMemoryAllocationOf_forVM call.variableAccesses hsize
    hcapacity (fun _ _ h => h) hsized hT (fun a ha => hinput a (.inl ha))
    (fun a ha => hinput a (.inr (.inl ha))) fun a ha => hinput a (.inr (.inr ha))
  refine ⟨hfits, hext, hresult.imp fun v o hv => ?_⟩
  rcases hv with hv | ⟨-, x, hx, -⟩
  · exact .inl hv
  · exact .inr (Option.isSome_iff_exists.mpr ⟨x, hx⟩)

/-- A sequence of calls, from any tracker. -/
private theorem calls_spec {calls : List AllocationCall}
    (hsized : ∀ call ∈ calls, call.state.Sized size)
    {T : VMAddressTracker} (hT : T.Fits size params.vmCapacityBytes) :
    (calls.foldl (fun T call => (call.choose params T).2) T).Fits size params.vmCapacityBytes ∧
      T.ExtendedBy (calls.foldl (fun T call => (call.choose params T).2) T) := by
  induction calls generalizing T with
  | nil => exact ⟨hT, .refl T⟩
  | cons call calls ih =>
    obtain ⟨hcall, hcalls⟩ := List.forall_mem_cons.mp hsized
    obtain ⟨hfits, hext, -⟩ := choose_spec hsize hcapacity hcall hT
    obtain ⟨hrest, hrestext⟩ := ih hcalls hfits
    exact ⟨hrest, hext.trans hrestext⟩

private theorem addressesSound {calls : List AllocationCall}
    (hsized : ∀ call ∈ calls, call.state.Sized size) : AddressesSound size params calls := by
  have hfits : (trackerAfter params calls).Fits size params.vmCapacityBytes :=
    (calls_spec hsize hcapacity hsized fits_empty).1
  refine ⟨?_, fun v w x y hne hv hw => hfits.stacked.disjoint hne hv hw,
    fun v x hv => (hfits.stacked.end_le hv).trans hfits.top_le, ?_⟩
  · rintro l l' rfl
    have hprefix := (calls_spec hsize hcapacity (fun call hcall =>
      hsized call (List.mem_append_left _ hcall)) fits_empty).1
    rw [trackerAfter, trackerAfter, List.foldl_append]
    exact (calls_spec hsize hcapacity (fun call hcall =>
      hsized call (List.mem_append_right _ hcall)) hprefix).2
  · rintro l call l' rfl v va hv hvm
    have hprefix := (calls_spec hsize hcapacity (fun call hcall =>
      hsized call (List.mem_append_left _ hcall)) fits_empty).1
    exact (choose_spec hsize hcapacity (hsized call (List.mem_append_right _ List.mem_cons_self))
      hprefix).2.2 v va hv hvm

end Calls

/-! ### Shadows -/

/-- What a symbol of the module names. -/
inductive Symbol (Ty : Type)
  | variable (type : Ty)
  /-- A function or an alias. -/
  | other
deriving DecidableEq

/-- What the pass reads off the module: names, types and sizes of variables, and the naming of new
globals. -/
structure IRModule (Ty : Type) where
  getName : Value → String
  /-- The value type of a global, the allocated type of an alloca. -/
  getValueType : Value → Ty
  /-- How many elements an alloca has. -/
  getArraySize : Value → ℕ
  getTypeAllocSize : Ty → ℕ
  /-- The name of a new global whose own name is in use. -/
  makeUniqueName : List String → String → String
  makeUniqueName_notMem : ∀ names name, makeUniqueName names name ∉ names

/-- The shadow of a variable. -/
structure Shadow (Ty : Type) where
  owner : Value
  name : String
  type : Ty

/-- The symbols of the module, the shadows created so far, and the shadows of the present function
by name (`shadowMap_`). -/
structure ShadowState (Ty : Type) where
  symbols : List (String × Symbol Ty)
  shadows : List (Shadow Ty) := []
  shadowMap : ValueMap String := ∅

/-- The type of the global variable of a name. -/
def ShadowState.getNamedGlobal {Ty : Type} (S : ShadowState Ty) (name : String) : Option Ty :=
  (S.symbols.lookup name).bind fun symbol =>
    match symbol with
    | .variable type => some type
    | .other => none

namespace IRModule

variable {Ty : Type} (M : IRModule Ty)

/-- The bytes of a variable. -/
def size (v : Value) : ℕ :=
  if v.isGlobal then M.getTypeAllocSize (M.getValueType v)
  else M.getTypeAllocSize (M.getValueType v) * M.getArraySize v

/-- The name that the shadow of a variable should have; `F` is the function. -/
def shadowName (F : String) (v : Value) : String :=
  if v.isGlobal then "__vm_shadow_" ++ M.getName v
  else "__vm_shadow_" ++ F ++ "." ++ (if M.getName v ≠ "" then M.getName v else "alloca")

variable [DecidableEq Ty]

/-- The shadow of one variable: a global takes over the global variable of the shadow's name, if the
type fits; otherwise a new global is made. -/
def createShadow (F : String) (S : ShadowState Ty) (v : Value) : ShadowState Ty :=
  let shadowType := M.getValueType v
  let shadowName := M.shadowName F v
  if v.isGlobal = true ∧ S.getNamedGlobal shadowName = some shadowType then
    { S with shadowMap := S.shadowMap.insert v shadowName }
  else
    let names := S.symbols.map Prod.fst
    let name := if shadowName ∈ names then M.makeUniqueName names shadowName else shadowName
    { symbols := S.symbols ++ [(name, .variable shadowType)]
      shadows := S.shadows ++ [⟨v, name, shadowType⟩]
      shadowMap := S.shadowMap.insert v name }

omit [DecidableEq Ty] in
/-- Further symbols of the module, that are not shadows. -/
def declare (S : ShadowState Ty) (symbols : List (String × Symbol Ty)) : ShadowState Ty :=
  { S with symbols := S.symbols ++ symbols, shadowMap := ∅ }

/-- **`createShadowGlobals`**. -/
def createShadowGlobals (F : String) (solution : SchematicSolution) (S : ShadowState Ty) :
    ShadowState Ty :=
  solution.vmPlacedVals.foldl (M.createShadow F) { S with shadowMap := ∅ }

omit [DecidableEq Ty] in
/-- The bytes of all shadows. -/
def shadowBytes (S : ShadowState Ty) : ℕ :=
  (S.shadows.map fun sh => M.getTypeAllocSize sh.type).sum

/-- The variables that get a shadow, each with the state before. -/
def shadowSteps (F : String) : ShadowState Ty → List Value → List (ShadowState Ty × Value)
  | _, [] => []
  | S, v :: vs => (S, v) :: shadowSteps F (M.createShadow F S v) vs

omit [DecidableEq Ty] in
/-- **A variable that keeps to one shadow of its size**: if a global has a shadow, that shadow has
the shadow's own name, and an alloca is not empty. -/
def KeepsShadow (S : ShadowState Ty) (v : Value) : Prop :=
  if v.isGlobal then ∀ F, ∀ sh ∈ S.shadows, sh.owner = v → sh.name = M.shadowName F v
  else M.getArraySize v ≠ 0

/-! ### Modules -/

/-- **A run over the functions of a module**: the pass runs on, and at the end of the analysis of a
function its shadows are created. `functions` has the candidates of the functions that are done; an
alloca belongs to one function. Symbols may be declared before. The log has all creations of
shadows. -/
inductive Run (params : SchematicParams) : List (List Value) → PassState → ShadowState Ty →
    List (ShadowState Ty × Value) → Prop
  | start {ctx : Context} {symbols : List (String × Symbol Ty)} (hparams : ctx.params = params)
      (hsized : ctx.state.Sized M.size) : Run params [] { ctx := ctx } { symbols := symbols } []
  | instrument {functions : List (List Value)} {σ τ : PassState} {S : ShadowState Ty}
      {log : List (ShadowState Ty × Value)} {events : List (PassState × PassEvent)}
      (symbols : List (String × Symbol Ty)) (F : String)
      (before : Run params functions σ S log) (solve : PassRun M.size params σ events τ)
      (own : ∀ candidates ∈ functions, ∀ v ∈ τ.ctx.state.candidates, v ∈ candidates →
        v.isGlobal = true) :
      Run params (τ.ctx.state.candidates :: functions) τ
        (M.createShadowGlobals F τ.solution (declare S symbols))
        (log ++ M.shadowSteps F (declare S symbols) τ.solution.vmPlacedVals)

/-! ### The shadows of a module -/

/-- The shadows of variables that have an address: one for each variable. -/
private structure Owned (S : ShadowState Ty) (T : VMAddressTracker) (locals : Value → Prop) :
    Prop where
  nodup : (S.shadows.map Shadow.owner).Nodup
  type_eq : ∀ sh ∈ S.shadows, sh.type = M.getValueType sh.owner
  size_le : ∀ sh ∈ S.shadows, M.getTypeAllocSize sh.type ≤ M.size sh.owner
  named : ∀ sh ∈ S.shadows, ∀ F, sh.owner.isGlobal = true → sh.name = M.shadowName F sh.owner →
    S.getNamedGlobal sh.name = some sh.type
  address : ∀ sh ∈ S.shadows, (T.getExistingAddress sh.owner).isSome = true
  own : ∀ sh ∈ S.shadows, sh.owner.isGlobal = false → locals sh.owner

section Owned

variable {M} {F : String} {S : ShadowState Ty} {T T' : VMAddressTracker} {locals : Value → Prop}
  {v : Value}

omit [DecidableEq Ty] in
/-- Symbols that are added do not hide others. -/
private theorem getNamedGlobal_append {symbols : List (String × Symbol Ty)} {name : String}
    {type : Ty}
    (h : S.getNamedGlobal name = some type) {shadows : List (Shadow Ty)}
    {shadowMap : ValueMap String} :
    ShadowState.getNamedGlobal ⟨S.symbols ++ symbols, shadows, shadowMap⟩ name = some type := by
  obtain ⟨symbol, hsymbol, htype⟩ := Option.bind_eq_some_iff.mp h
  rw [ShadowState.getNamedGlobal, List.lookup_append, hsymbol]
  exact htype

omit [DecidableEq Ty] in
private theorem Owned.declare (h : Owned M S T locals) (symbols : List (String × Symbol Ty)) :
    Owned M (declare S symbols) T locals :=
  ⟨h.nodup, h.type_eq, h.size_le, fun sh hsh F hglobal hname =>
    getNamedGlobal_append (h.named sh hsh F hglobal hname), h.address, h.own⟩

omit [DecidableEq Ty] in
private theorem Owned.mono (h : Owned M S T locals) (hT : T.ExtendedBy T') {locals' : Value → Prop}
    (hlocals : ∀ v, locals v → locals' v) : Owned M S T' locals' := by
  refine ⟨h.nodup, h.type_eq, h.size_le, h.named, fun sh hsh => ?_, fun sh hsh hlocal =>
    hlocals _ (h.own sh hsh hlocal)⟩
  obtain ⟨x, hx⟩ := Option.isSome_iff_exists.mp (h.address sh hsh)
  exact Option.isSome_iff_exists.mpr ⟨x, hT _ x hx⟩

/-- **One variable** that keeps to one shadow. -/
private theorem Owned.createShadow (h : Owned M S T locals)
    (hv : (T.getExistingAddress v).isSome = true) (hlocal : v.isGlobal = false → ¬locals v)
    (hkeeps : M.KeepsShadow S v) : Owned M (M.createShadow F S v) T fun w => locals w ∨ w = v := by
  rw [IRModule.createShadow]
  dsimp only
  by_cases hshared : v.isGlobal = true ∧
      S.getNamedGlobal (M.shadowName F v) = some (M.getValueType v)
  · rw [if_pos hshared]
    exact ⟨h.nodup, h.type_eq, h.size_le, h.named, h.address, fun sh hsh hsl =>
      .inl (h.own sh hsh hsl)⟩
  · rw [if_neg hshared]
    -- the variable has no shadow yet
    have hnew : ∀ sh ∈ S.shadows, sh.owner ≠ v := by
      rintro sh hsh rfl
      cases hglobal : sh.owner.isGlobal with
      | false => exact hlocal hglobal (h.own sh hsh hglobal)
      | true =>
        rw [KeepsShadow, if_pos hglobal] at hkeeps
        have hname := hkeeps F sh hsh rfl
        refine hshared ⟨hglobal, ?_⟩
        rw [← hname, h.named sh hsh F hglobal hname, h.type_eq sh hsh]
    have hsize : M.getTypeAllocSize (M.getValueType v) ≤ M.size v := by
      rw [size]
      split_ifs with hglobal
      · exact le_rfl
      · rw [KeepsShadow, if_neg hglobal] at hkeeps
        exact Nat.le_mul_of_pos_right _ (Nat.pos_of_ne_zero hkeeps)
    generalize hname : (if M.shadowName F v ∈ S.symbols.map Prod.fst then
      M.makeUniqueName (S.symbols.map Prod.fst) (M.shadowName F v) else M.shadowName F v) = name
    -- the name is not in use
    have hfree : S.symbols.lookup name = none := by
      rw [List.lookup_eq_none_iff]
      rintro ⟨used, symbol⟩ hused
      have hmem : used ∈ S.symbols.map Prod.fst := List.mem_map.mpr ⟨_, hused, rfl⟩
      have hne : name ≠ used := by
        rintro rfl
        split_ifs at hname with hclash
        · exact M.makeUniqueName_notMem _ _ (hname ▸ hmem)
        · exact hclash (hname ▸ hmem)
      simpa using hne
    refine ⟨?_, ?_, ?_, ?_, ?_, ?_⟩
    · rw [List.map_append, List.nodup_append]
      refine ⟨h.nodup, List.nodup_singleton v, fun w hw w' hw' => ?_⟩
      obtain ⟨sh, hsh, rfl⟩ := List.mem_map.mp hw
      rw [List.map_singleton, List.mem_singleton] at hw'
      exact hw' ▸ hnew sh hsh
    all_goals
      intro sh hsh
      rcases List.mem_append.mp hsh with hold | hlast
    · exact h.type_eq sh hold
    · rw [List.mem_singleton.mp hlast]
    · exact h.size_le sh hold
    · rw [List.mem_singleton.mp hlast]
      exact hsize
    · exact fun F' hglobal hown => getNamedGlobal_append (h.named sh hold F' hglobal hown)
    · intro F' hglobal hown
      rw [List.mem_singleton.mp hlast, ShadowState.getNamedGlobal, List.lookup_append, hfree]
      simp
    · exact h.address sh hold
    · rw [List.mem_singleton.mp hlast]
      exact hv
    · exact fun hsl => .inl (h.own sh hold hsl)
    · rw [List.mem_singleton.mp hlast]
      exact fun _ => .inr rfl

/-- The variables of a function, each of which keeps to one shadow. -/
private theorem Owned.foldl {vals : List Value} (h : Owned M S T locals) (hnodup : vals.Nodup)
    (hvals : ∀ v ∈ vals, (T.getExistingAddress v).isSome = true)
    (hlocal : ∀ v ∈ vals, v.isGlobal = false → ¬locals v)
    (hkeeps : ∀ entry ∈ M.shadowSteps F S vals, M.KeepsShadow entry.1 entry.2) :
    Owned M (vals.foldl (M.createShadow F) S) T fun w => locals w ∨ w ∈ vals := by
  induction vals generalizing S locals with
  | nil => exact h.mono (.refl T) fun v hv => .inl hv
  | cons v vals ih =>
    obtain ⟨hnotMem, hnodup⟩ := List.nodup_cons.mp hnodup
    obtain ⟨hv, hvals⟩ := List.forall_mem_cons.mp hvals
    obtain ⟨hvlocal, hlocal⟩ := List.forall_mem_cons.mp hlocal
    obtain ⟨hvkeeps, hkeeps⟩ := List.forall_mem_cons.mp hkeeps
    have hrest := ih (h.createShadow (F := F) hv hvlocal hvkeeps) hnodup hvals (fun w hw hwl => ?_)
      hkeeps
    · refine hrest.mono (.refl T) fun w hw => ?_
      rcases hw with (hw | rfl) | hw
      · exact .inl hw
      · exact .inr List.mem_cons_self
      · exact .inr (List.mem_cons_of_mem v hw)
    · rintro (hold | rfl)
      · exact hlocal w hw hwl hold
      · exact hnotMem hw

end Owned

section Run

variable {M} {params : SchematicParams}

omit [DecidableEq Ty] in
/-- What is placed in VM anywhere has the property of all VM variables. -/
private theorem mem_vmPlacedVals {Q : Value → Option ℕ → Prop} {K : Value → Prop}
    {solution : SchematicSolution} (h : SolutionStored Q K solution) {v : Value}
    (hv : v ∈ solution.vmPlacedVals) : K v := by
  have hvars : ∀ a : RegionAllocation, a.ForVM (fun v _ => K v) →
      v ∈ (a.vars.walk.filter fun e => e.2.placement = .vm).map Prod.fst → K v := by
    intro a ha hmem
    obtain ⟨⟨w, va⟩, hw, rfl⟩ := List.mem_map.mp hmem
    obtain ⟨hwalk, hvm⟩ := List.mem_filter.mp hw
    exact ha w va (ValueMap.mem_walk.mp hwalk) (of_decide_eq_true hvm)
  rw [SchematicSolution.vmPlacedVals, List.mem_insertionSort, List.mem_dedup] at hv
  obtain ⟨a, ha, hv⟩ := List.mem_flatMap.mp hv
  rcases List.mem_append.mp ha with ha | ha
  · obtain ⟨R, hR, rfl⟩ := List.mem_map.mp ha
    exact hvars _ (h.regions R hR) hv
  · obtain ⟨e, he, rfl⟩ := List.mem_map.mp ha
    exact hvars _ (h.decisions e.1 e.2 (AList.mem_lookup_iff.mpr he)) hv

omit [DecidableEq Ty] in
private theorem vmPlacedVals_nodup (solution : SchematicSolution) :
    solution.vmPlacedVals.Nodup :=
  (List.perm_insertionSort _ _).nodup_iff.mpr (List.nodup_dedup _)

variable (hsize : ∀ v, M.size v < 2 ^ 31) (hcapacity : params.vmCapacityBytes < 2 ^ 31)
include hsize hcapacity

/-- A run over a module keeps the invariants of the pass and of the shadows. -/
private theorem Run.owned {functions : List (List Value)} {σ : PassState} {S : ShadowState Ty}
    {log : List (ShadowState Ty × Value)} (hrun : M.Run params functions σ S log)
    (hlog : ∀ entry ∈ log, M.KeepsShadow entry.1 entry.2) :
    Stored M.size params False σ ∧
      Owned M S σ.tracker fun v => ∃ candidates ∈ functions, v ∈ candidates := by
  induction hrun with
  | start hparams hsized =>
    exact ⟨.init hparams hsized, by simp, by simp, by simp, by simp, by simp, by simp⟩
  | @instrument functions σ τ S log events symbols F _ solve own ih =>
    obtain ⟨hstored, howned⟩ := ih fun entry hentry => hlog entry (List.mem_append_left _ hentry)
    have hsteps := fun entry hentry => hlog entry (List.mem_append_right _ hentry)
    have hext := hstored.run_extendedBy hsize hcapacity solve
    have hstored' := (hstored.run hsize hcapacity solve (fun hfalse => hfalse.elim)).1
    have hplaced : ∀ v ∈ τ.solution.vmPlacedVals, AtAddress τ.Known False τ.tracker v none :=
      fun v hv => mem_vmPlacedVals hstored'.solution hv
    -- an alloca in VM belongs to the function that is instrumented
    have hcandidate : ∀ v ∈ τ.solution.vmPlacedVals, v.isGlobal = false →
        v ∈ τ.ctx.state.candidates := by
      intro v hv hlocal
      rcases (hplaced v hv).1 with hglobal | hcandidate
      · exact absurd (hlocal.symm.trans hglobal) (by simp)
      · exact hcandidate
    have hshadows := ((howned.mono hext fun v hv => hv).declare symbols).foldl
      (vmPlacedVals_nodup τ.solution) (fun v hv => ?_) (fun v hv hlocal => ?_) hsteps
    · refine ⟨hstored', hshadows.nodup, hshadows.type_eq, hshadows.size_le, hshadows.named,
        hshadows.address, fun sh hsh hlocal => ?_⟩
      rcases hshadows.own sh hsh hlocal with ⟨candidates, hmem, hown⟩ | hmem
      · exact ⟨candidates, List.mem_cons_of_mem _ hmem, hown⟩
      · exact ⟨_, List.mem_cons_self, hcandidate _ hmem hlocal⟩
    · obtain ⟨-, x, hx, -⟩ := hplaced v hv
      exact Option.isSome_iff_exists.mpr ⟨x, hx⟩
    · rintro ⟨candidates, hmem, hv'⟩
      have hglobal := own candidates hmem v (hcandidate v hv hlocal) hv'
      exact absurd (hlocal.symm.trans hglobal) (by simp)

/-- **The VM capacity over a module.** The addresses of any calls are sound, and in every run over a
module in which variables keep to one shadow of their size the shadows fit. -/
theorem shadows_fit_of_keeps :
    (∀ calls : List AllocationCall, (∀ call ∈ calls, call.state.Sized M.size) →
      AddressesSound M.size params calls) ∧
    ∀ (functions : List (List Value)) (σ : PassState) (S : ShadowState Ty)
      (log : List (ShadowState Ty × Value)), M.Run params functions σ S log →
      (∀ entry ∈ log, M.KeepsShadow entry.1 entry.2) →
        M.shadowBytes S ≤ params.vmCapacityBytes := by
  refine ⟨fun calls hsized => addressesSound hsize hcapacity hsized,
    fun functions σ S log hrun hlog => ?_⟩
  obtain ⟨hstored, howned⟩ := hrun.owned hsize hcapacity hlog
  have howners : (S.shadows.map fun sh => M.size sh.owner).sum =
      ∑ v ∈ (S.shadows.map Shadow.owner).toFinset, M.size v := by
    rw [List.sum_toFinset _ howned.nodup, List.map_map]
    rfl
  calc M.shadowBytes S ≤ (S.shadows.map fun sh => M.size sh.owner).sum :=
        List.sum_le_sum howned.size_le
    _ = ∑ v ∈ (S.shadows.map Shadow.owner).toFinset, M.size v := howners
    _ ≤ σ.tracker.topAddress := by
        refine hstored.fits.stacked.sum_le _ fun v hv => ?_
        obtain ⟨sh, hsh, rfl⟩ := List.mem_map.mp (List.mem_toFinset.mp hv)
        exact howned.address sh hsh
    _ ≤ params.vmCapacityBytes := hstored.fits.top_le

end Run

end IRModule

/-! ### A global that two functions load -/

/-- A number with a suffix that makes a name new. -/
private theorem exists_unused (names : List String) (name : String) :
    ∃ k ∈ List.range (names.length + 1), name ++ "." ++ Nat.repr (k + 1) ∉ names := by
  by_contra hall
  push Not at hall
  have hsub : ((List.range (names.length + 1)).map fun k => name ++ "." ++ Nat.repr (k + 1)) ⊆
      names := by
    intro n hn
    obtain ⟨k, hk, rfl⟩ := List.mem_map.mp hn
    exact hall k hk
  have hnodup : ((List.range (names.length + 1)).map fun k =>
      name ++ "." ++ Nat.repr (k + 1)).Nodup := by
    refine List.nodup_range.map fun k k' hkk => ?_
    have := Nat.repr_injective ((String.append_right_inj _).mp hkk)
    omega
  have hlength := (hnodup.subperm hsub).length_le
  simp at hlength

/-- The first number that makes a name new. -/
def firstUnused (names : List String) (name : String) : String :=
  (((List.range (names.length + 1)).map fun k => name ++ "." ++ Nat.repr (k + 1)).find? fun n =>
    decide (n ∉ names)).getD name

private theorem firstUnused_notMem (names : List String) (name : String) :
    firstUnused names name ∉ names := by
  obtain ⟨k, hk, hnew⟩ := exists_unused names name
  rw [firstUnused]
  cases hfind : ((List.range (names.length + 1)).map fun k => name ++ "." ++ Nat.repr (k + 1)).find?
      fun n => decide (n ∉ names) with
  | none =>
    have := List.find?_eq_none.mp hfind _ (List.mem_map.mpr ⟨k, hk, rfl⟩)
    exact absurd hnew (by simpa using this)
  | some n => simpa using List.find?_some hfind

/-- A global. -/
def levelVar : Value := ⟨0, true⟩

/-- The module of the global, which has two bytes. Its types are numbers of bytes. -/
def levelModule : IRModule ℕ where
  getName _ := "level"
  getValueType v := if v = levelVar then 2 else 0
  getArraySize _ := 1
  getTypeAllocSize type := type
  makeUniqueName := firstUnused
  makeUniqueName_notMem := firstUnused_notMem

def levelParams : SchematicParams :=
  { capacity := 100
    E_pro := 1
    E_epi := 1
    N_reg := 0
    regStoreEnergy := 0
    regRestoreEnergy := 0
    nvmAccessPenalty := 1
    memStoreEnergyPerByte := 0
    memRestoreEnergyPerByte := 0
    vmCapacityBytes := 2
    loopIncrementCostNvm := 1
    callCost := 0 }

def levelState : SchematicStateAnalysis :=
  { candidates := [levelVar]
    getLoadCount := fun bb v => if bb = 0 ∧ v = levelVar then 1 else 0
    getStoreCount := fun _ _ => 0
    getFirstOpIsLoad := fun bb v => if bb = 0 ∧ v = levelVar then some true else none
    getVarSizeBytes := fun v => if v = levelVar then 2 else 0
    isPointerType := fun _ => false }

/-- A function of one block, which loads the global. -/
def readLevel : FunctionInput :=
  { cfg := ⟨[0], [], fun _ => 10⟩
    state := levelState
    functionPaths := [[.real 0]] }

def levelContext : Context :=
  ⟨readLevel.allNvmCost levelParams, levelState, levelParams, readLevel.LI⟩

private theorem sized_levelState : levelState.Sized levelModule.size := by
  intro v
  by_cases hv : v = levelVar <;>
    simp [levelState, levelModule, IRModule.size, hv]

/-- What the pass makes of a function that loads the global. -/
def levelSolved (T : VMAddressTracker) : Option (Context × Analysis) :=
  (solveFunction readLevel levelParams (fun _ => none) T).toOption

/-- The tracker after a first function that loads the global. -/
def levelTracker : VMAddressTracker := (levelSolved {}).elim {} fun p => p.2.tracker

/-- The shadows after each of two functions. -/
def levelShadows (symbols : List (String × Symbol ℕ)) : ShadowState ℕ :=
  levelModule.createShadow "first" (IRModule.declare { symbols := symbols } []) levelVar

@[inherit_doc levelShadows]
def levelShadowsTwice (symbols : List (String × Symbol ℕ)) : ShadowState ℕ :=
  levelModule.createShadow "second" (IRModule.declare (levelShadows symbols) []) levelVar

/-- The run over two functions that load the global. -/
private theorem level_runs (symbols : List (String × Symbol ℕ)) : ∃ functions σ,
    levelModule.Run levelParams functions σ (levelShadowsTwice symbols)
      [(IRModule.declare { symbols := symbols } [], levelVar),
        (IRModule.declare (levelShadows symbols) [], levelVar)] := by
  have hsolve : ∀ T, (levelSolved T).map (fun p => (p.1.state.candidates,
    p.2.solution.vmPlacedVals)) =
      some ([levelVar], [levelVar]) → ∃ ctx A,
        solveFunction readLevel levelParams (fun _ => none) T = .ok (ctx, A) ∧
          levelSolved T = some (ctx, A) ∧ ctx.state.candidates = [levelVar] ∧
            A.solution.vmPlacedVals = [levelVar] := by
    intro T hT
    obtain ⟨⟨ctx, A⟩, hsome, hpair⟩ := Option.map_eq_some_iff.mp hT
    obtain ⟨hcandidates, hplaced⟩ := Prod.mk.injEq .. ▸ hpair
    refine ⟨ctx, A, ?_, hsome, hcandidates, hplaced⟩
    rw [levelSolved] at hsome
    cases hx : solveFunction readLevel levelParams (fun _ => none) T with
    | error e =>
      rw [hx] at hsome
      cases hsome
    | ok p =>
      rw [hx] at hsome
      exact congrArg Except.ok (Option.some.inj hsome)
  -- either function keeps the global in VM
  obtain ⟨ctx₁, A₁, hsolve₁, hsome, hcandidates₁, hplaced₁⟩ := hsolve {} (by decide +kernel)
  obtain ⟨ctx₂, A₂, hsolve₂, -, hcandidates₂, hplaced₂⟩ := hsolve levelTracker (by decide +kernel)
  have htracker : A₁.tracker = levelTracker := by rw [levelTracker, hsome, Option.elim_some]
  obtain ⟨body₁, events₁, hrun₁⟩ := solveFunction_runs levelModule.size
    (σ := { ctx := levelContext }) rfl rfl (by simp) hsolve₁
  rw [← htracker] at hsolve₂
  obtain ⟨body₂, hreach⟩ := solveFunction_runs levelModule.size
    (σ := { ctx := levelContext, tracker := A₁.tracker }) rfl rfl (by simp) hsolve₂
  have hnext : PassStep levelModule.size levelParams ⟨ctx₁, A₁.solution, A₁.tracker, [], body₁⟩
      (.function levelContext) { ctx := levelContext, tracker := A₁.tracker } :=
    .function rfl sized_levelState
  obtain ⟨events₂, hrun₂⟩ := (PassReaches.of_step hnext).trans hreach
  have hstart : levelModule.Run levelParams [] { ctx := levelContext } { symbols := symbols } [] :=
    .start rfl sized_levelState
  have hfirst := hstart.instrument [] "first" hrun₁ (by simp)
  have hsecond := hfirst.instrument [] "second" hrun₂ (by
    simp [hcandidates₁, hcandidates₂, levelVar])
  simp only [IRModule.createShadowGlobals, hplaced₁, hplaced₂] at hsecond
  exact ⟨_, _, hsecond⟩

/-- The two functions share the shadow: it takes the two bytes there are. -/
theorem shadows_fit_level : (∃ functions σ log,
    levelModule.Run levelParams functions σ (levelShadowsTwice []) log) ∧
      levelModule.shadowBytes (levelShadowsTwice []) ≤ levelParams.vmCapacityBytes := by
  obtain ⟨functions, σ, hrun⟩ := level_runs []
  have hsize : ∀ v, levelModule.size v < 2 ^ 31 := by
    intro v
    by_cases hv : v = levelVar <;> simp [levelModule, IRModule.size, hv]
  refine ⟨⟨functions, σ, _, hrun⟩, (IRModule.shadows_fit_of_keeps hsize (by decide)).2 _ _ _ _
    hrun ?_⟩
  have hfirst : levelModule.KeepsShadow (IRModule.declare { symbols := [] } []) levelVar := by
    intro F sh hsh
    cases hsh
  have hsecond : levelModule.KeepsShadow (IRModule.declare (levelShadows []) []) levelVar := by
    intro F sh hsh _
    rw [List.mem_singleton.mp hsh]
    rfl
  exact List.forall_mem_cons.mpr ⟨hfirst, List.forall_mem_singleton.mpr hsecond⟩

/-- The module has a global with the name of the shadow, of one byte. The shadows of the two
functions are both new, and take four bytes. -/
theorem global_has_two_shadows : (∃ functions σ log, levelModule.Run levelParams functions σ
    (levelShadowsTwice [("__vm_shadow_level", .variable 1)]) log) ∧
      levelParams.vmCapacityBytes <
        levelModule.shadowBytes (levelShadowsTwice [("__vm_shadow_level", .variable 1)]) := by
  obtain ⟨functions, σ, hrun⟩ := level_runs [("__vm_shadow_level", .variable 1)]
  exact ⟨⟨functions, σ, _, hrun⟩, by decide +kernel⟩

end Bao.Schematic
