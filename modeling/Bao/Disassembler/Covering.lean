import Bao.Disassembler.ParseLine

/-!
# The instruction that a relocation patches

`findInstructionCovering` goes back over the instructions to the last one that starts at or below
the offset (`LastUpTo`), and finds it if it covers the offset (`findInstructionCovering_eq_some`).
A relocation sets the target of that instruction if it is a call (`getElem?_attachRelocation`).
-/

namespace Bao.Disassembler

/-- The last instruction that starts at or below an offset. -/
structure LastUpTo (instructions : List ListedInstruction) (offset i : ℕ)
    (I : ListedInstruction) : Prop where
  getElem : instructions[i]? = some I
  le : I.address ≤ offset
  lt : ∀ j J, i < j → instructions[j]? = some J → offset < J.address

/-- A relocation at the offset sets the target of the instruction `i`. -/
def SetsCallTarget (result : List Instruction) (offset i : ℕ) : Prop :=
  findInstructionCovering result offset = some i ∧
    ∃ instr, result[i]? = some instr ∧ instr.mnemonic = call

section LastUpTo

variable {T E P : List ListedInstruction} {offset i : ℕ} {I : ListedInstruction}

/-- The last instruction of a list comes first, if it starts at or below the offset. -/
private theorem lastUpTo_concat {J : ListedInstruction} :
    LastUpTo (T ++ [J]) offset i I ↔
      J.address ≤ offset ∧ i = T.length ∧ I = J ∨ offset < J.address ∧ LastUpTo T offset i I := by
  have hlast : (T ++ [J])[T.length]? = some J := by
    rw [List.getElem?_append_right le_rfl, Nat.sub_self]
    rfl
  have hbound : ∀ {j J'}, (T ++ [J])[j]? = some J' → j ≤ T.length := fun h => by
    have hj := (List.getElem?_eq_some_iff.mp h).1
    rw [List.length_append, List.length_singleton] at hj
    omega
  constructor
  · rintro ⟨hget, hle, hlt⟩
    rcases Nat.lt_or_ge i T.length with hi | hi
    · refine .inr ⟨hlt _ _ hi hlast, by rwa [List.getElem?_append_left hi] at hget, hle, ?_⟩
      intro j J' hj hJ'
      refine hlt j J' hj ?_
      rw [List.getElem?_append_left (List.getElem?_eq_some_iff.mp hJ').1, hJ']
    · obtain rfl : i = T.length := le_antisymm (hbound hget) hi
      obtain rfl : J = I := Option.some.inj (hlast.symm.trans hget)
      exact .inl ⟨hle, rfl, rfl⟩
  · rintro (⟨hle, rfl, rfl⟩ | ⟨hlt, hget, hle, hafter⟩)
    · exact ⟨hlast, hle, fun j J' hj hJ' => absurd (hbound hJ') (Nat.not_le.mpr hj)⟩
    · have hi := (List.getElem?_eq_some_iff.mp hget).1
      refine ⟨by rw [List.getElem?_append_left hi, hget], hle, fun j J' hj hJ' => ?_⟩
      rcases Nat.lt_or_ge j T.length with hjT | hjT
      · rw [List.getElem?_append_left hjT] at hJ'
        exact hafter j J' hj hJ'
      · obtain rfl : j = T.length := le_antisymm (hbound hJ') hjT
        obtain rfl : J = J' := Option.some.inj (hlast.symm.trans hJ')
        exact hlt

/-- Instructions above the offset do not count. -/
theorem lastUpTo_append_of_lt (h : ∀ J ∈ P, offset < J.address) :
    LastUpTo (E ++ P) offset i I ↔ LastUpTo E offset i I := by
  induction P using List.reverseRecOn with
  | nil => rw [List.append_nil]
  | append_singleton P J ih =>
    have hJ : offset < J.address := h J (List.mem_append_right _ (List.mem_singleton_self J))
    rw [← List.append_assoc, lastUpTo_concat,
      ih fun J' hJ' => h J' (List.mem_append_left _ hJ')]
    constructor
    · rintro (⟨hle, -⟩ | ⟨-, hlast⟩)
      · exact absurd hle (Nat.not_le.mpr hJ)
      · exact hlast
    · exact fun hlast => .inr ⟨hJ, hlast⟩

end LastUpTo

/-- **`findInstructionCovering`** finds the last instruction that starts at or below the offset, if
it covers it. -/
theorem findInstructionCovering_eq_some {result : List Instruction} {offset i : ℕ} :
    findInstructionCovering result offset = some i ↔
      ∃ I, LastUpTo (result.map Instruction.listed) offset i I ∧ I.Covers offset := by
  induction result using List.reverseRecOn with
  | nil =>
    refine iff_of_false (by simp [findInstructionCovering, findCoveringFrom]) ?_
    rintro ⟨I, ⟨hget, -, -⟩, -⟩
    cases hget
  | append_singleton result instr ih =>
    have hfind : findInstructionCovering (result ++ [instr]) offset =
        if instr.address ≤ offset then
          if offset < instr.address + instr.size then some result.length else none
        else findInstructionCovering result offset := by
      rw [findInstructionCovering, List.reverse_append, List.reverse_singleton,
        List.singleton_append, findCoveringFrom, List.length_reverse]
      rfl
    rw [hfind, List.map_append, List.map_singleton]
    simp only [lastUpTo_concat, List.length_map]
    split_ifs with hle hlt
    · constructor
      · rintro ⟨⟩
        exact ⟨instr.listed, .inl ⟨hle, rfl, rfl⟩, hle, hlt⟩
      · rintro ⟨I, ⟨-, rfl, -⟩ | ⟨hnot, -⟩, -⟩
        · rfl
        · exact absurd hle (Nat.not_le.mpr hnot)
    · refine iff_of_false (by simp) ?_
      rintro ⟨I, ⟨-, -, rfl⟩ | ⟨hnot, -⟩, hcovers⟩
      · exact hlt hcovers.2
      · exact absurd hle (Nat.not_le.mpr hnot)
    · rw [ih]
      refine exists_congr fun I => and_congr_left fun _ => ⟨fun h => ?_, ?_⟩
      · exact .inr ⟨Nat.lt_of_not_le hle, h⟩
      · rintro (⟨hnot, -⟩ | ⟨-, h⟩)
        · exact absurd hnot hle
        · exact h

/-- What a relocation sets, read off the listed instructions. -/
theorem setsCallTarget_iff {result : List Instruction} {offset i : ℕ} :
    SetsCallTarget result offset i ↔ ∃ I, LastUpTo (result.map Instruction.listed) offset i I ∧
      I.mnemonic = call ∧ I.Covers offset := by
  rw [SetsCallTarget, findInstructionCovering_eq_some]
  constructor
  · rintro ⟨⟨I, hlast, hcovers⟩, instr, hget, hcall⟩
    have hI : some instr.listed = some I := by
      rw [← hlast.getElem, List.getElem?_map, hget, Option.map_some]
    obtain rfl := Option.some.inj hI
    exact ⟨instr.listed, hlast, hcall, hcovers⟩
  · rintro ⟨I, hlast, hcall, hcovers⟩
    have hget := hlast.getElem
    rw [List.getElem?_map, Option.map_eq_some_iff] at hget
    obtain ⟨instr, hget, rfl⟩ := hget
    exact ⟨⟨instr.listed, hlast, hcovers⟩, instr, hget, hcall⟩

open Classical in
/-- **A relocation sets one target** and changes nothing else. -/
theorem getElem?_attachRelocation (result : List Instruction) (offset : ℕ) (symbol : List Char)
    (i : ℕ) :
    (attachRelocation result offset symbol)[i]? = result[i]?.map fun instr =>
      if SetsCallTarget result offset i then { instr with callTarget := symbol } else instr := by
  rw [attachRelocation]
  cases hfind : findInstructionCovering result offset with
  | none =>
    have hnot : ¬SetsCallTarget result offset i := fun h => by
      rw [SetsCallTarget, hfind] at h
      cases h.1
    simp only [if_neg hnot, Option.map_id']
  | some target =>
    simp only [List.getElem?_modify]
    by_cases htarget : target = i
    · subst htarget
      cases hget : result[target]? with
      | none => rfl
      | some instr =>
        have hiff : SetsCallTarget result offset target ↔ instr.mnemonic = call := by
          rw [SetsCallTarget, hfind, hget]
          simp
        simp [hiff]
    · have hnot : ¬SetsCallTarget result offset i := fun h => by
        rw [SetsCallTarget, hfind] at h
        exact htarget (Option.some.inj h.1)
      simp [htarget, hnot]

end Bao.Disassembler
