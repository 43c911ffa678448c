import Bao.Disassembler.Parser
import Bao.Energy.Analyzer

/-!
# The costs of instructions

`EnergyModel` of the analyzer looks the cost of an instruction up under a key made of its mnemonic
and addressing mode, and the cost of a call under a key with the name of the callee. Where there is
no such entry it falls back to shorter keys and at last to a default. It keeps the keys it was asked
for and those it did not have; both are reported beside the energies.

A call of `memcpy` or `memset` also costs something for each byte. The number of bytes is taken from
the instructions in front of the call (`extractSizeArg`). In a build whose stack lies in FRAM every
access of the stack costs extra (`countStackAccesses`).

The keys that are required do not depend on the costs (`requiredKeys_query`), those that are missing
are required and have no cost (`reports_query`), and without a missing key the default does not
count (`query_withDefault`).
-/

namespace Bao.Energy

open Text Disassembler

/-! ### The model -/

/-- The costs of the configuration file. -/
structure EnergyModel where
  costs : String → Option ℚ
  defaultEnergy : ℚ := 1
  ignoredCallTargets : List String := []

/-- An answer of the model, and the keys it puts into the two sets on the way. -/
structure Query where
  energy : ℚ
  requiredKeys : List String
  missingKeys : List String

/-- `makeKey`. -/
def makeKey (mnemonic addrMode : String) : String :=
  if addrMode = "" then mnemonic else mnemonic ++ "_" ++ addrMode

/-- **`EnergyModel::getEnergy`**. -/
def EnergyModel.getEnergy (model : EnergyModel) (mnemonic addrMode : String) : Query :=
  let key := makeKey mnemonic addrMode
  match model.costs key with
  | some cost => ⟨cost, [key], []⟩
  | none =>
    match model.costs mnemonic with
    | some cost => ⟨cost, [key], []⟩
    | none => ⟨model.defaultEnergy, [key], [key]⟩

def primaryKey (callTarget : String) : String := "call_" ++ callTarget

def perByteKey (callTarget : String) : String := primaryKey callTarget ++ "_bytes"

/-- **`EnergyModel::getCallEnergy`**. -/
def EnergyModel.getCallEnergy (model : EnergyModel) (addrMode callTarget : String)
    (sizeArg : Option ℕ) : Query :=
  if callTarget = "" then model.getEnergy "call" addrMode
  else if callTarget ∈ model.ignoredCallTargets then ⟨0, [], []⟩
  else
    let keys := primaryKey callTarget :: sizeArg.toList.map fun _ => perByteKey callTarget
    match model.costs (primaryKey callTarget) with
    | some baseCost =>
      match sizeArg with
      | none => ⟨baseCost, keys, []⟩
      | some size =>
        match model.costs (perByteKey callTarget) with
        | some perByte => ⟨baseCost + size * perByte, keys, []⟩
        | none => ⟨baseCost, keys, [perByteKey callTarget]⟩
    | none =>
      -- the cost of a byte is asked for although it will not be used
      let missing := (sizeArg.toList.map fun _ => perByteKey callTarget).filter
        fun key => (model.costs key).isNone
      match model.costs (makeKey "call" addrMode) with
      | some cost => ⟨cost, keys, missing⟩
      | none => ⟨model.defaultEnergy, keys, missing ++ [primaryKey callTarget]⟩

/-! ### The size of a copy -/

/-- `std::stoul(s, nullptr, 0)` with 64 bits: blanks, a sign, the base, and as many digits as there
are. -/
def stoul (s : List Char) : Option ℕ :=
  let s := s.dropWhile isSpace
  let negative := s.head? = some '-'
  let s := if s.head? = some '-' ∨ s.head? = some '+' then s.tail else s
  let hex := s.head? = some '0' ∧ (s.tail.head? = some 'x' ∨ s.tail.head? = some 'X') ∧
    ∃ c ∈ s.tail.tail.head?, isHexDigit c
  let base := if hex then 16 else if s.head? = some '0' then 8 else 10
  let s := if hex then s.tail.tail else s
  let digits := s.takeWhile fun c => isHexDigit c && hexDigitValue c < base
  let n := digits.foldl (fun n c => base * n + hexDigitValue c) 0
  if digits = [] ∨ 2 ^ 64 ≤ n then none
  else if negative then some ((2 ^ 64 - n) % 2 ^ 64)
  else some n

/-- The text of a call target, as objdump prints it. -/
def CallTarget.text (target : CallTarget) : String :=
  match target.offset with
  | none => target.symbol
  | some offset => target.symbol ++ "+0x" ++ String.ofList (Nat.toDigits 16 offset)

/-- The register with the third argument. -/
def r14 : List Char := ['r', '1', '4']

/-- The two operands of an instruction, without the blanks in front of them. -/
def sourceOperand (instr : Instruction) : List Char :=
  (cut ',' instr.operands.toList).1.dropWhile isBlank

@[inherit_doc sourceOperand]
def destOperand (instr : Instruction) : Option (List Char) :=
  (cut ',' instr.operands.toList).2.map (List.dropWhile isBlank)

/-- The loop of `extractSizeArg` over the instructions in front of a call, the nearest one first. -/
def findSizeArg : List Instruction → Option ℕ
  | [] => none
  | prev :: earlier =>
    if prev.mnemonic = "mov" ∧ prev.addrMode = "immediate_register" then
      if destOperand prev = some r14 ∧ (sourceOperand prev).head? = some '#' then
        (stoul (sourceOperand prev).tail).map (· % 2 ^ 32)
      else findSizeArg earlier
    -- r14 written by anything else
    else if destOperand prev = some r14 then none
    else findSizeArg earlier

/-- **`extractSizeArg`**: three instructions back at most; `before` is what is listed before the
call, the nearest instruction first. -/
def extractSizeArg (before : List Instruction) : Option ℕ := findSizeArg (before.take 3)

/-- `copySizeArg`; an `UnknownCopySize` of zero is none. -/
def copySizeArg (UnknownCopySize : ℕ) (before : List Instruction) : Option ℕ :=
  (extractSizeArg before).or (if 0 < UnknownCopySize then some UnknownCopySize else none)

/-! ### Accesses of the stack -/

/-- The digits behind the first `#` that has some. -/
def findCount : List Char → Option (List Char)
  | [] => none
  | c :: s =>
    if c = '#' ∧ s.takeWhile Char.isDigit ≠ [] then some (s.takeWhile Char.isDigit)
    else findCount s

/-- `@[rR][14]\+?|.*\([rR][14]\)`, without the frame pointer `@[rR]1\+?|.*\([rR]1\)`. -/
def stackOperand (fpIsR4 : Bool) : Pattern :=
  let register : Pattern := .seq (.char fun c => c == 'r' || c == 'R')
    (.char fun c => c == '1' || (fpIsR4 && c == '4'))
  .alt (.all [.lit '@', register, .opt (.lit '+')])
    (.all [.many isAny, .lit '(', register, .lit ')'])

/-- **`countStackAccesses`**. -/
def countStackAccesses (instr : Instruction) (fpIsR4 : Bool) : ℕ :=
  if instr.mnemonic ∈ ["pushm", "popm"] then
    match findCount instr.operands.toList with
    | some digits => digits.foldl (fun n c => 10 * n + hexDigitValue c) 0 % 2 ^ 32
    | none => 1
  else
    let operands := ((instr.operands.toList.splitOn ',').map trim).filter (· ≠ [])
    let count := operands.countP fun operand => ((stackOperand fpIsR4).fullMatch operand).isSome
    -- these also push or pop a word
    if instr.mnemonic ∈ ["push", "pop", "call", "calla", "ret", "reta", "reti"] then count + 1
    else count

/-- `r1,\s*r4`. -/
def fpPrologue : Pattern :=
  .all [.lit 'r', .lit '1', .lit ',', .many isSpace, .lit 'r', .lit '4']

/-! ### Listed instructions -/

/-- An instruction of the listing and those listed before it, the nearest one first. -/
structure Listed where
  instr : Instruction
  before : List Instruction

/-- The instructions of a listing behind those in `before`. -/
def listedFrom (before : List Instruction) : List Instruction → List Listed
  | [] => []
  | instr :: rest => ⟨instr, before⟩ :: listedFrom (instr :: before) rest

/-- What the model is asked for an instruction. -/
def EnergyModel.query (model : EnergyModel) (UnknownCopySize : ℕ) (l : Listed) : Query :=
  if l.instr.mnemonic = "call" then
    let callTarget := l.instr.callTarget.text
    model.getCallEnergy l.instr.addrMode callTarget
      (if callTarget = "memcpy" ∨ callTarget = "memset" then copySizeArg UnknownCopySize l.before
        else none)
  else model.getEnergy l.instr.mnemonic l.instr.addrMode

/-! ### Keys -/

namespace EnergyModel

variable (model : EnergyModel)

/-- The keys an answer puts into the sets: the missing ones are required and have no cost. -/
def Reports (q : Query) : Prop :=
  ∀ key ∈ q.missingKeys, key ∈ q.requiredKeys ∧ model.costs key = none

theorem reports_getEnergy (mnemonic addrMode : String) :
    model.Reports (model.getEnergy mnemonic addrMode) := by
  simp only [getEnergy]
  split
  · simp [Reports]
  · next hkey =>
      split
      · simp [Reports]
      · simp [Reports, hkey]

theorem reports_getCallEnergy (addrMode callTarget : String) (sizeArg : Option ℕ) :
    model.Reports (model.getCallEnergy addrMode callTarget sizeArg) := by
  rw [getCallEnergy]
  split_ifs
  · exact model.reports_getEnergy _ _
  · simp [Reports]
  · dsimp only
    split
    · split
      · simp [Reports]
      · split
        · simp [Reports]
        · next hbytes => simp [Reports, hbytes]
    · next hprimary =>
      have hmissing : ∀ key ∈ (sizeArg.toList.map fun _ => perByteKey callTarget).filter
          (fun key => (model.costs key).isNone),
          key ∈ sizeArg.toList.map (fun _ => perByteKey callTarget) ∧ model.costs key = none := by
        intro key hkey
        obtain ⟨hmem, hnone⟩ := List.mem_filter.mp hkey
        exact ⟨hmem, by simpa using hnone⟩
      split
      · exact fun key hkey => ⟨List.mem_cons_of_mem _ (hmissing key hkey).1, (hmissing key hkey).2⟩
      · intro key hkey
        rcases List.mem_append.mp hkey with hkey | hkey
        · exact ⟨List.mem_cons_of_mem _ (hmissing key hkey).1, (hmissing key hkey).2⟩
        · obtain rfl := List.mem_singleton.mp hkey
          exact ⟨List.mem_cons_self .., hprimary⟩

/-- What is missing is required. -/
theorem reports_query (UnknownCopySize : ℕ) (l : Listed) :
    model.Reports (model.query UnknownCopySize l) := by
  rw [query]
  split_ifs
  · exact model.reports_getCallEnergy _ _ _
  · exact model.reports_getEnergy _ _

variable {model} {model' : EnergyModel}

theorem requiredKeys_getEnergy (mnemonic addrMode : String) :
    (model.getEnergy mnemonic addrMode).requiredKeys = [makeKey mnemonic addrMode] := by
  simp only [getEnergy]
  split
  · rfl
  · split <;> rfl

theorem requiredKeys_getCallEnergy (addrMode callTarget : String) (sizeArg : Option ℕ) :
    (model.getCallEnergy addrMode callTarget sizeArg).requiredKeys =
      if callTarget = "" then [makeKey "call" addrMode]
      else if callTarget ∈ model.ignoredCallTargets then []
      else primaryKey callTarget :: sizeArg.toList.map fun _ => perByteKey callTarget := by
  rw [getCallEnergy]
  split_ifs
  · exact requiredKeys_getEnergy _ _
  · rfl
  · dsimp only
    split
    · split
      · rfl
      · split <;> rfl
    · split <;> rfl

/-- **The required keys do not depend on the costs.** -/
theorem requiredKeys_query (h : model.ignoredCallTargets = model'.ignoredCallTargets)
    (UnknownCopySize : ℕ) (l : Listed) : (model.query UnknownCopySize l).requiredKeys =
      (model'.query UnknownCopySize l).requiredKeys := by
  rw [query, query]
  split_ifs
  · rw [requiredKeys_getCallEnergy, requiredKeys_getCallEnergy, h]
  · rw [requiredKeys_getEnergy, requiredKeys_getEnergy]

/-- Another default. -/
def withDefault (model : EnergyModel) (e : ℚ) : EnergyModel := { model with defaultEnergy := e }

theorem getEnergy_withDefault {mnemonic addrMode : String}
    (h : (model.getEnergy mnemonic addrMode).missingKeys = []) (e : ℚ) :
    (model.withDefault e).getEnergy mnemonic addrMode = model.getEnergy mnemonic addrMode := by
  simp only [getEnergy, withDefault] at h ⊢
  cases hkey : model.costs (makeKey mnemonic addrMode) with
  | some cost => rfl
  | none =>
    cases hmnemonic : model.costs mnemonic with
    | some cost => rfl
    | none => simp [hkey, hmnemonic] at h

theorem getCallEnergy_withDefault {addrMode callTarget : String} {sizeArg : Option ℕ}
    (h : (model.getCallEnergy addrMode callTarget sizeArg).missingKeys = []) (e : ℚ) :
    (model.withDefault e).getCallEnergy addrMode callTarget sizeArg =
      model.getCallEnergy addrMode callTarget sizeArg := by
  rw [getCallEnergy] at h
  rw [getCallEnergy, getCallEnergy]
  split_ifs at h with hempty hignored
  · rw [if_pos hempty, if_pos hempty, getEnergy_withDefault h]
  · rw [if_neg hempty, if_neg hempty, if_pos hignored]
    exact if_pos hignored
  · rw [if_neg hempty, if_neg hempty, if_neg hignored]
    refine (if_neg hignored).trans ?_
    simp only [withDefault]
    cases hprimary : model.costs (primaryKey callTarget) with
    | some cost => rfl
    | none =>
      cases hfallback : model.costs (makeKey "call" addrMode) with
      | some cost => rfl
      | none => simp [hprimary, hfallback] at h

/-- **Without a missing key the default does not count.** -/
theorem query_withDefault {UnknownCopySize : ℕ} {l : Listed}
    (h : (model.query UnknownCopySize l).missingKeys = []) (e : ℚ) :
    (model.withDefault e).query UnknownCopySize l = model.query UnknownCopySize l := by
  rw [query] at h
  rw [query, query]
  split_ifs at h ⊢
  · exact getCallEnergy_withDefault h e
  · exact getEnergy_withDefault h e

end EnergyModel
end Bao.Energy
