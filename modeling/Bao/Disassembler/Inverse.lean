import Bao.Disassembler.Covering

/-!
# The parser inverts the format

`parseObjdumpOutput` is to return the instructions of a listing, and every relocation is to set the
target of the call that covers it in its section. But the parser does not see the sections: it
skips their headers, and looks at the instructions before a line, in whichever section they are.

* A relocation is taken for the last instruction that starts at or below its offset. If it patches
  data at the start of a section, that instruction belongs to an earlier section. The bytes that an
  instruction is known to have are those of the lines before the relocation.
* Bytes without a text extend the last instruction if it ends where they start and the column before
  them is full.

A listing is parsed exactly if and only if neither goes wrong (`parsedExactly_iff`); a table of
addresses in a section of its own is enough for a call to get the wrong target
(`table_is_not_parsed`).
-/

namespace Bao.Disassembler

/-! ### The law -/

/-- The bytes of the last line that is no relocation. -/
def lineColumn (columnBytes : ℕ) : Line → ℕ
  | .reloc _ => columnBytes
  | .code c => c.size
  | .wrapped b | .undecoded b => b.size
  | .other _ => 0

/-- The bytes on the line behind `lines`, relocations left out. -/
def lastColumn (lines : List Line) : ℕ := lines.foldl lineColumn 0

namespace Listing

variable (L : Listing)

/-- The text up to the lines `pre` of the section `S`. -/
def textBefore (earlier : List Section) (S : Section) (pre : List Line) : List Char :=
  unlines (L.textsBefore earlier ++ S.header :: pre.map Line.text)

/-- **The parser inverts the format**: it returns the instructions of the listing with their
targets, and every relocation sets the target of the call that covers its offset in the same
section, and of no other instruction. -/
structure ParsedExactly : Prop where
  instructions : ∃ result, parseObjdumpOutput L.text = some result ∧
    result.map Instruction.listed = L.instructions ∧
    result.map Instruction.callTarget = L.callTargets
  relocations : ∀ earlier S pre r, L.At earlier S pre (.reloc r) → ∃ result,
    parseObjdumpOutput (L.textBefore earlier S pre) = some result ∧
    ∀ i, SetsCallTarget result r.offset.value i ↔
      ∃ k I, i = (earlier.flatMap Section.instructions).length + k ∧
        S.instructions[k]? = some I ∧ I.mnemonic = call ∧ I.Covers r.offset.value

/-- **What the parser cannot tell apart does not occur.** -/
structure Unambiguous : Prop where
  /-- Bytes without an instruction do not start, behind a full column, where the last instruction
  before them ends. -/
  undecoded : ∀ earlier S pre b, L.At earlier S pre (.undecoded b) → 0 < b.size →
    lastColumn pre = WrapWidth →
    ∀ I ∈ (earlier.flatMap Section.instructions ++ listed pre).getLast?, I.stop ≠ b.address.value
  /-- If no instruction before a relocation starts at or below its offset in the same section, the
  last one that does in the earlier sections is no call that covers the offset. -/
  section_start : ∀ earlier S pre r, L.At earlier S pre (.reloc r) →
    (∀ I ∈ listed pre, r.offset.value < I.address) →
    ∀ i I, LastUpTo (earlier.flatMap Section.instructions) r.offset.value i I →
      I.mnemonic = call → ¬I.Covers r.offset.value
  /-- A relocation stands behind the bytes it patches, if they are those of a call. -/
  reloc_printed : ∀ earlier S pre r, L.At earlier S pre (.reloc r) →
    ∀ (k : ℕ) (I I' : ListedInstruction), S.instructions[k]? = some I → I.mnemonic = call →
      I.Covers r.offset.value → (listed pre)[k]? = some I' → I'.Covers r.offset.value

end Listing

/-! ### Instructions grow -/

/-- The instructions of `l` are those at the start of `l'`, perhaps with fewer bytes. -/
private def Extends (l l' : List ListedInstruction) : Prop :=
  ∀ (k : ℕ) (I : ListedInstruction), l[k]? = some I → ∃ I' : ListedInstruction,
    l'[k]? = some I' ∧ I'.address = I.address ∧ I'.mnemonic = I.mnemonic ∧ I.size ≤ I'.size

private theorem Extends.refl (l : List ListedInstruction) : Extends l l := fun _ I h =>
  ⟨I, h, rfl, rfl, le_rfl⟩

private theorem Extends.trans {l l' l'' : List ListedInstruction} (h : Extends l l')
    (h' : Extends l' l'') : Extends l l'' := fun k I hI => by
  obtain ⟨I', hI', haddress, hmnemonic, hsize⟩ := h k I hI
  obtain ⟨I'', hI'', haddress', hmnemonic', hsize'⟩ := h' k I' hI'
  exact ⟨I'', hI'', haddress'.trans haddress, hmnemonic'.trans hmnemonic, hsize.trans hsize'⟩

private theorem Extends.append (l m : List ListedInstruction) : Extends l (l ++ m) := fun k I h =>
  ⟨I, by rw [List.getElem?_append_left (List.getElem?_eq_some_iff.mp h).1, h], rfl, rfl, le_rfl⟩

private theorem Extends.modifyLast (l : List ListedInstruction) (n : ℕ) :
    Extends l (l.modifyLast (.extend n)) := by
  rcases List.eq_nil_or_concat l with rfl | ⟨init, J, rfl⟩
  · exact fun k I h => by cases h
  · rw [List.concat_eq_append, List.modifyLast_concat]
    intro k I h
    rcases Nat.lt_or_ge k init.length with hk | hk
    · rw [List.getElem?_append_left hk] at h ⊢
      exact ⟨I, h, rfl, rfl, le_rfl⟩
    · rw [List.getElem?_append_right hk] at h ⊢
      cases hindex : k - init.length with
      | zero =>
        rw [hindex] at h
        cases h
        exact ⟨J.extend n, rfl, rfl, rfl, Nat.le_add_right _ _⟩
      | succ j =>
        rw [hindex] at h
        cases h

private theorem length_modifyLast {α : Type*} (f : α → α) (l : List α) :
    (l.modifyLast f).length = l.length := by
  rcases List.eq_nil_or_concat l with rfl | ⟨init, a, rfl⟩
  · rfl
  · rw [List.concat_eq_append, List.modifyLast_concat, List.length_append, List.length_append]
    rfl

private theorem map_modifyLast {α β : Type*} {f : α → α} {g : β → β} {h : α → β}
    (hfg : ∀ a, h (f a) = g (h a)) (l : List α) :
    (l.modifyLast f).map h = (l.map h).modifyLast g := by
  rcases List.eq_nil_or_concat l with rfl | ⟨init, a, rfl⟩
  · rfl
  · rw [List.concat_eq_append, List.modifyLast_concat, List.map_append, List.map_append,
      List.map_singleton, List.map_singleton, List.modifyLast_concat, hfg]

private theorem listed_concat (lines : List Line) (l : Line) :
    listed (lines ++ [l]) = listLine (listed lines) l := by
  rw [listed, List.foldl_append]
  rfl

private theorem extends_listLine (instructions : List ListedInstruction) (l : Line) :
    Extends instructions (listLine instructions l) := by
  cases l with
  | code c => exact .append _ _
  | wrapped b => exact .modifyLast _ _
  | other l => exact .refl _
  | undecoded b => exact .refl _
  | reloc r => exact .refl _

/-- Later lines add bytes and instructions. -/
private theorem extends_listed (pre post : List Line) :
    Extends (listed pre) (listed (pre ++ post)) := by
  induction post using List.reverseRecOn with
  | nil =>
    rw [List.append_nil]
    exact .refl _
  | append_singleton post l ih =>
    rw [← List.append_assoc, listed_concat]
    exact ih.trans (extends_listLine _ _)

/-- The instructions of later lines come last. -/
private theorem listed_append (pre post : List Line) : ∃ init,
    listed (pre ++ post) = init ++ listed post ∧ init.length = (listed pre).length := by
  induction post using List.reverseRecOn with
  | nil => exact ⟨listed pre, by rw [List.append_nil]; exact (List.append_nil _).symm, rfl⟩
  | append_singleton post l ih =>
    obtain ⟨init, heq, hlength⟩ := ih
    rw [← List.append_assoc, listed_concat, listed_concat, heq]
    cases l with
    | code c => exact ⟨init, List.append_assoc _ _ _, hlength⟩
    | wrapped b =>
      by_cases hempty : listed post = []
      · refine ⟨init.modifyLast (.extend b.size), ?_, by rw [length_modifyLast, hlength]⟩
        rw [hempty, List.append_nil, listLine, listLine]
        exact (List.append_nil _).symm
      · exact ⟨init, List.modifyLast_append_of_right_ne_nil _ _ _ hempty, hlength⟩
    | other l => exact ⟨init, rfl, hlength⟩
    | undecoded b => exact ⟨init, rfl, hlength⟩
    | reloc r => exact ⟨init, rfl, hlength⟩

/-! ### Wrapped lines -/

private theorem wraps_append {full : Option ℕ} {pre post : List Line} :
    Wraps full (pre ++ post) ↔ Wraps full pre ∧ Wraps (pre.foldl fullStop full) post := by
  induction pre generalizing full with
  | nil => exact ⟨fun h => ⟨trivial, h⟩, And.right⟩
  | cons l pre ih =>
    cases l with
    | wrapped b =>
      rw [List.cons_append, Wraps, Wraps, ih, List.foldl_cons, and_assoc]
    | other l => exact ih
    | code c => exact ih
    | undecoded b => exact ih
    | reloc r => exact ih

private theorem lastColumn_concat (lines : List Line) (l : Line) :
    lastColumn (lines ++ [l]) = lineColumn (lastColumn lines) l := by
  rw [lastColumn, List.foldl_append]
  rfl

/-- Behind a full column of an instruction, the instruction is the last one, and ends there. -/
private theorem exists_last_of_fullStop {lines : List Line} {stop : ℕ} (hwraps : Wraps none lines)
    (h : lines.foldl fullStop none = some stop) :
    lastColumn lines = WrapWidth ∧ ∃ init I, listed lines = init ++ [I] ∧ I.stop = stop := by
  induction lines using List.reverseRecOn generalizing stop with
  | nil => cases h
  | append_singleton lines l ih =>
    obtain ⟨hlines, hl⟩ := wraps_append.mp hwraps
    rw [List.foldl_append] at h
    rw [lastColumn_concat, listed_concat]
    cases l with
    | code c =>
      change (if c.listed.isSome ∧ c.size = WrapWidth then some c.stop else none) = some stop at h
      split_ifs at h with hfull
      obtain ⟨I, hI⟩ := Option.isSome_iff_exists.mp hfull.1
      refine ⟨hfull.2, listed lines, I, by rw [listLine, hI]; rfl, ?_⟩
      rw [CodeLine.listed] at hI
      cases hcode : c.code with
      | instruction t =>
        rw [hcode] at hI
        cases hI
        exact Option.some.inj h
      | directive text hany hhead =>
        rw [hcode] at hI
        cases hI
    | wrapped b =>
      change (if b.size = WrapWidth then some b.stop else none) = some stop at h
      split_ifs at h with hfull
      obtain ⟨-, init, I, hlisted, hstop⟩ := ih hlines hl.1
      refine ⟨hfull, init, I.extend b.size, ?_, ?_⟩
      · rw [listLine, hlisted, List.modifyLast_concat]
      · rw [← Option.some.inj h, ByteLine.stop, ← hstop]
        exact (Nat.add_assoc _ _ _).symm
    | reloc r => exact ih hlines h
    | other l => cases h
    | undecoded b => cases h

/-- Behind a line without an instruction, no line adds bytes to the instructions before. -/
private theorem foldl_listLine_of_wraps {instructions : List ListedInstruction}
    {post : List Line} (hwraps : Wraps none post) :
    post.foldl listLine instructions = instructions ++ listed post := by
  induction post using List.reverseRecOn with
  | nil => exact (List.append_nil _).symm
  | append_singleton post l ih =>
    obtain ⟨hpost, hl⟩ := wraps_append.mp hwraps
    rw [List.foldl_append, listed_concat, ih hpost]
    cases l with
    | code c => exact List.append_assoc _ _ _
    | wrapped b =>
      obtain ⟨-, init, I, hlisted, -⟩ := exists_last_of_fullStop hpost hl.1
      exact List.modifyLast_append_of_right_ne_nil _ _ _ (by rw [hlisted]; simp)
    | other l => rfl
    | undecoded b => rfl
    | reloc r => rfl

/-! ### The instructions of the parser -/

private theorem listed_continueInstruction (result : List Instruction) (columnBytes address n : ℕ) :
    (continueInstruction result columnBytes address n).map Instruction.listed =
      if columnBytes = WrapWidth ∧ ∃ I ∈ (result.map Instruction.listed).getLast?, I.stop = address
      then (result.map Instruction.listed).modifyLast (.extend n)
      else result.map Instruction.listed := by
  have hiff : (∃ I ∈ (result.map Instruction.listed).getLast?, I.stop = address) ↔
      ∃ back ∈ result.getLast?, back.address + back.size = address := by
    rw [List.getLast?_map]
    simp only [Option.mem_def, Option.map_eq_some_iff]
    constructor
    · rintro ⟨-, ⟨back, hback, rfl⟩, hstop⟩
      exact ⟨back, hback, hstop⟩
    · rintro ⟨back, hback, hstop⟩
      exact ⟨back.listed, ⟨back, hback, rfl⟩, hstop⟩
  rw [continueInstruction]
  by_cases hextends : columnBytes = WrapWidth ∧
      ∃ back ∈ result.getLast?, back.address + back.size = address
  · rw [if_pos hextends, if_pos (hextends.imp_right hiff.mpr)]
    refine map_modifyLast (h := Instruction.listed) (g := .extend n) ?_ result
    exact fun _ => rfl
  · rw [if_neg hextends, if_neg (mt (And.imp_right hiff.mp) hextends)]

private theorem listed_attachRelocation (result : List Instruction) (offset : ℕ)
    (symbol : List Char) :
    (attachRelocation result offset symbol).map Instruction.listed =
      result.map Instruction.listed := by
  classical
  refine List.ext_getElem? fun i => ?_
  rw [List.getElem?_map, List.getElem?_map, getElem?_attachRelocation, Option.map_map]
  refine congrArg (fun f => result[i]?.map f) (funext fun instr => ?_)
  rw [Function.comp_apply]
  split_ifs <;> rfl

private theorem listed_code (st : ParserState) (c : CodeLine) :
    ((Line.code c).apply st).result.map Instruction.listed =
      st.result.map Instruction.listed ++ c.listed.toList := by
  rw [Line.apply, List.map_append, ← c.instruction_listed]
  cases c.instruction <;> rfl

/-- A line adds bytes and instructions. -/
private theorem extends_apply (st : ParserState) (l : Line) :
    Extends (st.result.map Instruction.listed) ((l.apply st).result.map Instruction.listed) := by
  have hbytes : ∀ b : ByteLine, Extends (st.result.map Instruction.listed)
      ((continueInstruction st.result st.prevColumnBytes b.address.value b.size).map
        Instruction.listed) := fun b => by
    rw [listed_continueInstruction]
    split_ifs
    · exact .modifyLast _ _
    · exact .refl _
  cases l with
  | code c =>
    rw [listed_code]
    exact .append _ _
  | wrapped b => exact hbytes b
  | undecoded b => exact hbytes b
  | other l => exact .refl _
  | reloc r =>
    rw [Line.apply, listed_attachRelocation]
    exact .refl _

private theorem extends_applyLines (st : ParserState) (lines : List Line) :
    Extends (st.result.map Instruction.listed)
      ((applyLines st lines).result.map Instruction.listed) := by
  induction lines generalizing st with
  | nil => exact .refl _
  | cons l lines ih => exact (extends_apply st l).trans (ih (l.apply st))

private theorem extends_applySections (st : ParserState) (sections : List Section) :
    Extends (st.result.map Instruction.listed)
      ((sections.foldl applySection st).result.map Instruction.listed) := by
  induction sections generalizing st with
  | nil => exact .refl _
  | cons S sections ih =>
    exact (extends_applyLines ⟨st.result, 0⟩ S.lines).trans (ih (applySection st S))

private theorem prevColumnBytes_stateAt (earlier : List Section) (pre : List Line) :
    (stateAt earlier pre).prevColumnBytes = lastColumn pre := by
  induction pre using List.reverseRecOn with
  | nil => rfl
  | append_singleton pre l ih =>
    rw [stateAt_concat, lastColumn_concat]
    cases l with
    | reloc r => exact ih
    | code c => rfl
    | wrapped b => rfl
    | undecoded b => rfl
    | other l => rfl

/-- The parser has the instructions of the lines so far. -/
private def IsExact (earlier : List Section) (pre : List Line) : Prop :=
  (stateAt earlier pre).result.map Instruction.listed =
    earlier.flatMap Section.instructions ++ listed pre

/-- Bytes without an instruction that the parser takes for the rest of the last instruction. -/
private def IsMistaken (earlier : List Section) (pre : List Line) (b : ByteLine) : Prop :=
  lastColumn pre = WrapWidth ∧
    ∃ I ∈ (earlier.flatMap Section.instructions ++ listed pre).getLast?, I.stop = b.address.value

private instance (earlier : List Section) (pre : List Line) (b : ByteLine) :
    Decidable (IsMistaken earlier pre b) :=
  inferInstanceAs (Decidable (_ ∧ _))

/-- What the parser makes of bytes without a text. -/
private theorem listed_bytes {earlier : List Section} {pre : List Line} (h : IsExact earlier pre)
    (b : ByteLine) :
    (continueInstruction (stateAt earlier pre).result (stateAt earlier pre).prevColumnBytes
        b.address.value b.size).map Instruction.listed =
      if IsMistaken earlier pre b then
        (earlier.flatMap Section.instructions ++ listed pre).modifyLast (.extend b.size)
      else earlier.flatMap Section.instructions ++ listed pre := by
  rw [listed_continueInstruction, prevColumnBytes_stateAt, h]
  rfl

/-- **One line keeps the instructions exact**, unless it is mistaken for the rest of the last
instruction. -/
private theorem isExact_concat {earlier : List Section} {pre : List Line} {l : Line}
    (h : IsExact earlier pre) (hwraps : Wraps none (pre ++ [l]))
    (hundecoded : ∀ b, l = .undecoded b → 0 < b.size → ¬IsMistaken earlier pre b) :
    IsExact earlier (pre ++ [l]) := by
  rw [IsExact, stateAt_concat, listed_concat]
  cases l with
  | code c => rw [listed_code, h, List.append_assoc, listLine]
  | wrapped b =>
    obtain ⟨hpre, hb⟩ := wraps_append.mp hwraps
    obtain ⟨hcolumn, init, I, hlisted, hstop⟩ := exists_last_of_fullStop hpre hb.1
    have hmistaken : IsMistaken earlier pre b := by
      refine ⟨hcolumn, I, ?_, hstop⟩
      rw [hlisted, ← List.append_assoc, List.getLast?_concat]
      rfl
    rw [Line.apply, listed_bytes h b, if_pos hmistaken, listLine,
      List.modifyLast_append_of_right_ne_nil _ _ _ (by rw [hlisted]; simp)]
  | undecoded b =>
    rw [Line.apply, listed_bytes h b]
    change _ = earlier.flatMap Section.instructions ++ listed pre
    split_ifs with hmistaken
    · have hsize : b.size = 0 := by
        by_contra hne
        exact hundecoded b rfl (Nat.pos_of_ne_zero hne) hmistaken
      rcases List.eq_nil_or_concat (earlier.flatMap Section.instructions ++ listed pre) with
        hnil | ⟨init, I, hconcat⟩
      · rw [hnil]
        rfl
      · rw [hconcat, List.concat_eq_append, List.modifyLast_concat, hsize]
        rfl
    · rfl
  | other l => exact h
  | reloc r =>
    rw [Line.apply, listed_attachRelocation, h]
    rfl

private theorem isExact_lines {earlier : List Section} {S : Section}
    (hstart : (resultBehind earlier).map Instruction.listed =
      earlier.flatMap Section.instructions)
    (hundecoded : ∀ pre b post, S.lines = pre ++ .undecoded b :: post → IsExact earlier pre →
      0 < b.size → ¬IsMistaken earlier pre b)
    (pre : List Line) {post : List Line} (hlines : S.lines = pre ++ post) :
    IsExact earlier pre := by
  induction pre using List.reverseRecOn generalizing post with
  | nil => exact hstart.trans (List.append_nil _).symm
  | append_singleton pre l ih =>
    rw [List.append_assoc, List.singleton_append] at hlines
    have hpre := ih hlines
    refine isExact_concat hpre ?_ fun b hb => hundecoded pre b post (hb ▸ hlines) hpre
    have hwraps := S.wraps
    rw [hlines, ← List.singleton_append, ← List.append_assoc] at hwraps
    exact (wraps_append.mp hwraps).1

section Listing

variable {L : Listing} {earlier : List Section} {S : Section} {pre : List Line}

private theorem listed_resultBehind
    (hundecoded : ∀ earlier S pre b, L.At earlier S pre (.undecoded b) → IsExact earlier pre →
      0 < b.size → ¬IsMistaken earlier pre b)
    (earlier : List Section) {later : List Section} (hsections : L.sections = earlier ++ later) :
    (resultBehind earlier).map Instruction.listed = earlier.flatMap Section.instructions := by
  induction earlier using List.reverseRecOn generalizing later with
  | nil => rfl
  | append_singleton earlier S ih =>
    rw [List.append_assoc, List.singleton_append] at hsections
    have hexact := isExact_lines (ih hsections)
      (fun pre b post hlines => hundecoded earlier S pre b ⟨later, post, hsections, hlines⟩)
      S.lines (List.append_nil _).symm
    rw [resultBehind_concat, hexact, List.flatMap_append, List.flatMap_singleton]
    rfl

/-- **The instructions are exact** everywhere if no bytes are mistaken for the rest of an
instruction. -/
private theorem isExact_of_at
    (hundecoded : ∀ earlier S pre b, L.At earlier S pre (.undecoded b) → IsExact earlier pre →
      0 < b.size → ¬IsMistaken earlier pre b) {l : Line} (hat : L.At earlier S pre l) :
    IsExact earlier pre := by
  obtain ⟨later, post, hsections, hlines⟩ := hat
  exact isExact_lines (listed_resultBehind hundecoded earlier hsections)
    (fun pre b post hlines => hundecoded earlier S pre b ⟨later, post, hsections, hlines⟩)
    pre hlines

/-- What the parser has in the end is what it has behind a line, and more. -/
private theorem extends_resultBehind {later : List Section} {post : List Line}
    (hsections : L.sections = earlier ++ S :: later) (hlines : S.lines = pre ++ post) :
    Extends ((stateAt earlier pre).result.map Instruction.listed)
      ((resultBehind L.sections).map Instruction.listed) := by
  have hresult : resultBehind L.sections =
      (later.foldl applySection (stateAt earlier S.lines)).result := by
    rw [resultBehind, hsections, List.foldl_append]
    rfl
  have hstate : stateAt earlier S.lines = applyLines (stateAt earlier pre) post := by
    rw [stateAt, hlines, applyLines, List.foldl_append]
    rfl
  rw [hresult, hstate]
  exact (extends_applyLines _ post).trans (extends_applySections _ later)

/-- **Bytes that are mistaken** make an instruction longer than it is listed. -/
private theorem not_isMistaken
    (hresult : (resultBehind L.sections).map Instruction.listed = L.instructions) {b : ByteLine}
    (hat : L.At earlier S pre (.undecoded b)) (hexact : IsExact earlier pre) (hpos : 0 < b.size) :
    ¬IsMistaken earlier pre b := by
  intro hmistaken
  obtain ⟨later, post, hsections, hlines⟩ := hat
  obtain ⟨-, I, hlast, -⟩ := id hmistaken
  obtain ⟨init, hinit⟩ := List.getLast?_eq_some_iff.mp hlast
  -- behind the line, the last instruction has the bytes of the line too
  have hafter : (stateAt earlier (pre ++ [.undecoded b])).result.map Instruction.listed =
      init ++ [I.extend b.size] := by
    rw [stateAt_concat, Line.apply, listed_bytes hexact b, if_pos hmistaken, hinit,
      List.modifyLast_concat]
  have hwraps := S.wraps
  rw [hlines] at hwraps
  have hlisted : S.instructions = listed pre ++ listed post := by
    rw [Section.instructions, hlines, listed, List.foldl_append]
    exact foldl_listLine_of_wraps (wraps_append.mp hwraps).2
  have hinstructions : L.instructions =
      init ++ I :: (listed post ++ later.flatMap Section.instructions) := by
    rw [Listing.instructions, hsections, List.flatMap_append, List.flatMap_cons, hlisted,
      List.append_assoc, ← List.append_assoc, hinit, List.append_assoc, List.singleton_append]
  rw [← List.singleton_append, ← List.append_assoc] at hlines
  obtain ⟨I', hI', -, -, hsize⟩ := extends_resultBehind hsections hlines init.length
    (I.extend b.size) (by rw [hafter, List.getElem?_append_right le_rfl, Nat.sub_self]; rfl)
  rw [hresult, hinstructions, List.getElem?_append_right le_rfl, Nat.sub_self] at hI'
  cases hI'
  have hgrown : I.size + b.size ≤ I.size := hsize
  omega

/-! ### The targets of the parser -/

private theorem relocsFollow_append {pre post : List Line} (h : RelocsFollow (pre ++ post)) :
    RelocsFollow post := by
  induction pre with
  | nil => exact h
  | cons l pre ih =>
    cases l with
    | reloc r => exact ih h.2
    | other l => exact ih h
    | code c => exact ih h
    | wrapped b => exact ih h
    | undecoded b => exact ih h

/-- A relocation patches no instruction behind it. -/
private theorem not_covers_of_le {r : RelocLine} {post : List Line} {k : ℕ}
    {I : ListedInstruction} (hlines : S.lines = pre ++ .reloc r :: post)
    (hk : (listed pre).length ≤ k) (hI : S.instructions[k]? = some I) :
    ¬I.Covers r.offset.value := by
  obtain ⟨init, hlisted, hlength⟩ := listed_append pre (.reloc r :: post)
  rw [Section.instructions, hlines, hlisted, List.getElem?_append_right (hlength.trans_le hk)] at hI
  have hfollow := S.relocsFollow
  rw [hlines] at hfollow
  exact (relocsFollow_append hfollow).1 I (List.mem_of_getElem? hI)

/-- The position of the call that covers the offset of a relocation. -/
private def IsCoveringCall (earlier : List Section) (S : Section) (offset i : ℕ) : Prop :=
  ∃ k I, i = (earlier.flatMap Section.instructions).length + k ∧
    S.instructions[k]? = some I ∧ I.mnemonic = call ∧ I.Covers offset

/-- **A relocation sets the right target** if the instructions before it are its section's, and
their bytes are there. -/
private theorem isCoveringCall_of_unambiguous {r : RelocLine} {post : List Line}
    (hlines : S.lines = pre ++ .reloc r :: post) (hexact : IsExact earlier pre)
    (hstart : (∀ I ∈ listed pre, r.offset.value < I.address) →
      ∀ i I, LastUpTo (earlier.flatMap Section.instructions) r.offset.value i I →
        I.mnemonic = call → ¬I.Covers r.offset.value)
    (hprinted : ∀ (k : ℕ) (I I' : ListedInstruction), S.instructions[k]? = some I →
      I.mnemonic = call → I.Covers r.offset.value → (listed pre)[k]? = some I' →
      I'.Covers r.offset.value) (i : ℕ) :
    SetsCallTarget (stateAt earlier pre).result r.offset.value i ↔
      IsCoveringCall earlier S r.offset.value i := by
  have hextends : Extends (listed pre) S.instructions := by
    rw [Section.instructions, hlines]
    exact extends_listed pre _
  rw [setsCallTarget_iff, hexact]
  constructor
  · rintro ⟨I, hlast, hcall, hcovers⟩
    rcases Nat.lt_or_ge i (earlier.flatMap Section.instructions).length with hi | hi
    · -- the instruction belongs to an earlier section
      have hlt : ∀ J ∈ listed pre, r.offset.value < J.address := fun J hJ => by
        obtain ⟨k, hk⟩ := List.mem_iff_getElem?.mp hJ
        refine hlast.lt ((earlier.flatMap Section.instructions).length + k) J (by omega) ?_
        rw [List.getElem?_append_right (Nat.le_add_right _ _), Nat.add_sub_cancel_left, hk]
      exact absurd hcovers
        (hstart hlt i I ((lastUpTo_append_of_lt hlt).mp hlast) hcall)
    · have hget := hlast.getElem
      rw [List.getElem?_append_right hi] at hget
      obtain ⟨I', hI', haddress, hmnemonic, hsize⟩ := hextends _ I hget
      refine ⟨_, I', (Nat.add_sub_cancel' hi).symm, hI', hmnemonic.trans hcall,
        haddress.trans_le hcovers.1, hcovers.2.trans_le ?_⟩
      rw [ListedInstruction.stop, ListedInstruction.stop, haddress]
      exact Nat.add_le_add_left hsize _
  · rintro ⟨k, I, rfl, hI, hcall, hcovers⟩
    have hk : k < (listed pre).length := by
      by_contra hk
      exact not_covers_of_le hlines (Nat.le_of_not_lt hk) hI hcovers
    obtain ⟨I', hI'⟩ : ∃ I', (listed pre)[k]? = some I' := ⟨_, List.getElem?_eq_getElem hk⟩
    obtain ⟨I'', hI'', -, hmnemonic, -⟩ := hextends k I' hI'
    obtain rfl := Option.some.inj (hI.symm.trans hI'')
    have hcovers' := hprinted k I I' hI hcall hcovers hI'
    refine ⟨I', ⟨?_, hcovers'.1, fun j J hj hJ => ?_⟩, hmnemonic.symm.trans hcall, hcovers'⟩
    · rw [List.getElem?_append_right (Nat.le_add_right _ _), Nat.add_sub_cancel_left, hI']
    · -- later instructions of the section start behind the call
      rw [List.getElem?_append_right (by omega)] at hJ
      obtain ⟨J', hJ', haddress, -, -⟩ := hextends _ J hJ
      have hk' := (List.getElem?_eq_some_iff.mp hI)
      have hj' := (List.getElem?_eq_some_iff.mp hJ')
      have hordered := List.pairwise_iff_getElem.mp S.ordered k _ hk'.1 hj'.1 (by omega)
      rw [← haddress]
      refine hcovers.2.trans_le ?_
      rw [← hk'.2, ← hj'.2]
      exact hordered

/-- **Only then** it sets the right target. -/
private theorem unambiguous_of_isCoveringCall {r : RelocLine} (hexact : IsExact earlier pre)
    (hsets : ∀ i, SetsCallTarget (stateAt earlier pre).result r.offset.value i ↔
      IsCoveringCall earlier S r.offset.value i) :
    ((∀ I ∈ listed pre, r.offset.value < I.address) →
      ∀ i I, LastUpTo (earlier.flatMap Section.instructions) r.offset.value i I →
        I.mnemonic = call → ¬I.Covers r.offset.value) ∧
    ∀ (k : ℕ) (I I' : ListedInstruction), S.instructions[k]? = some I → I.mnemonic = call →
      I.Covers r.offset.value → (listed pre)[k]? = some I' → I'.Covers r.offset.value := by
  constructor
  · intro hlt i I hlast hcall hcovers
    have hset : SetsCallTarget (stateAt earlier pre).result r.offset.value i := by
      rw [setsCallTarget_iff, hexact]
      exact ⟨I, (lastUpTo_append_of_lt hlt).mpr hlast, hcall, hcovers⟩
    obtain ⟨k, -, rfl, -⟩ := (hsets i).mp hset
    have hbound := (List.getElem?_eq_some_iff.mp hlast.getElem).1
    omega
  · intro k I I' hI hcall hcovers hI'
    have hset := (hsets _).mpr ⟨k, I, rfl, hI, hcall, hcovers⟩
    rw [setsCallTarget_iff, hexact] at hset
    obtain ⟨J, hlast, -, hJ⟩ := hset
    have hget := hlast.getElem
    rw [List.getElem?_append_right (Nat.le_add_right _ _), Nat.add_sub_cancel_left, hI'] at hget
    rwa [Option.some.inj hget]

private theorem callTarget_eq_nil {rs : List RelocLine} {I : ListedInstruction}
    (h : ∀ r ∈ rs, ¬I.Covers r.offset.value) : callTarget rs I = [] := by
  have hfilter : (rs.filter fun r => I.Covers r.offset.value) = [] :=
    List.filter_eq_nil_iff.mpr fun r hr hcovers => h r hr (of_decide_eq_true hcovers)
  rw [callTarget, hfilter]
  split_ifs <;> rfl

/-- The last relocation that covers a call counts. -/
private theorem callTarget_concat (rs : List RelocLine) (r : RelocLine) (I : ListedInstruction) :
    callTarget (rs ++ [r]) I =
      if I.mnemonic = call ∧ I.Covers r.offset.value then r.symbol else callTarget rs I := by
  rw [callTarget, callTarget, List.filter_append]
  by_cases hcall : I.mnemonic = call
  · by_cases hcovers : I.Covers r.offset.value
    · rw [if_pos hcall, if_pos ⟨hcall, hcovers⟩, List.filter_singleton, decide_eq_true hcovers,
        cond_true, List.getLast?_concat]
      rfl
    · rw [if_pos hcall, if_pos hcall, if_neg (fun h => hcovers h.2), List.filter_singleton,
        decide_eq_false hcovers, cond_false, List.append_nil]
  · rw [if_neg hcall, if_neg hcall, if_neg fun h => hcall h.1]

private theorem mem_relocs {lines : List Line} {r : RelocLine} :
    r ∈ relocs lines ↔ .reloc r ∈ lines := by
  rw [relocs, List.mem_filterMap]
  constructor
  · rintro ⟨l, hl, heq⟩
    cases l <;> cases heq
    exact hl
  · exact fun h => ⟨_, h, rfl⟩

private theorem callTargets_continueInstruction (result : List Instruction)
    (columnBytes address n : ℕ) :
    (continueInstruction result columnBytes address n).map Instruction.callTarget =
      result.map Instruction.callTarget := by
  rw [continueInstruction]
  split_ifs
  · rcases List.eq_nil_or_concat result with rfl | ⟨init, back, rfl⟩
    · rfl
    · rw [List.concat_eq_append, List.modifyLast_concat, List.map_append, List.map_append]
      rfl
  · rfl

private theorem length_callTargets (earlier : List Section) :
    (earlier.flatMap Section.callTargets).length =
      (earlier.flatMap Section.instructions).length := by
  simp [List.length_flatMap, Section.callTargets]

/-- The targets of the parser are those of the relocations so far. -/
private def TargetsExact (earlier : List Section) (S : Section) (pre : List Line) : Prop :=
  (stateAt earlier pre).result.map Instruction.callTarget =
    earlier.flatMap Section.callTargets ++
      (S.instructions.take (listed pre).length).map (callTarget (relocs pre))

/-- **A relocation keeps the targets exact** if it sets the right one. -/
private theorem targetsExact_reloc {r : RelocLine} (h : TargetsExact earlier S pre)
    (hsets : ∀ i, SetsCallTarget (stateAt earlier pre).result r.offset.value i ↔
      IsCoveringCall earlier S r.offset.value i) :
    TargetsExact earlier S (pre ++ [.reloc r]) := by
  classical
  have hrelocs : relocs (pre ++ [.reloc r]) = relocs pre ++ [r] := List.filterMap_append
  rw [TargetsExact, stateAt_concat, listed_concat, hrelocs]
  refine List.ext_getElem? fun i => ?_
  have hold := congrArg (fun l => l[i]?) h
  simp only [List.getElem?_map] at hold
  -- the target of one instruction, before and after
  have hnew : ((Line.apply (stateAt earlier pre) (.reloc r)).result.map
      Instruction.callTarget)[i]? =
      ((stateAt earlier pre).result[i]?.map Instruction.callTarget).map fun target =>
        if IsCoveringCall earlier S r.offset.value i then r.symbol else target := by
    rw [Line.apply, List.getElem?_map, getElem?_attachRelocation, Option.map_map, Option.map_map]
    refine congrArg (fun f => (stateAt earlier pre).result[i]?.map f) (funext fun instr => ?_)
    rw [Function.comp_apply, Function.comp_apply]
    simp only [hsets i]
    split_ifs <;> rfl
  rw [hnew, hold]
  rcases Nat.lt_or_ge i (earlier.flatMap Section.callTargets).length with hi | hi
  · have hnot : ¬IsCoveringCall earlier S r.offset.value i := by
      rintro ⟨k, I, rfl, -⟩
      rw [length_callTargets] at hi
      omega
    rw [List.getElem?_append_left hi, List.getElem?_append_left hi]
    simp only [if_neg hnot, Option.map_id']
  · rw [List.getElem?_append_right hi, List.getElem?_append_right hi, List.getElem?_map,
      List.getElem?_map, Option.map_map]
    change _ = Option.map _ (S.instructions.take (listed pre).length)[_]?
    cases hget : (S.instructions.take (listed pre).length)[
      i - (earlier.flatMap Section.callTargets).length]? with
    | none => rfl
    | some I =>
      have hI : S.instructions[i - (earlier.flatMap Section.callTargets).length]? = some I := by
        rw [List.getElem?_take] at hget
        split_ifs at hget with hlt
        exact hget
      have hiff : IsCoveringCall earlier S r.offset.value i ↔
          I.mnemonic = call ∧ I.Covers r.offset.value := by
        rw [length_callTargets] at hi hI
        constructor
        · rintro ⟨k, I', rfl, hI', hcall, hcovers⟩
          rw [Nat.add_sub_cancel_left, hI'] at hI
          obtain rfl := Option.some.inj hI
          exact ⟨hcall, hcovers⟩
        · exact fun h => ⟨_, I, (Nat.add_sub_cancel' hi).symm, hI, h⟩
      rw [Option.map_some, Option.map_some, callTarget_concat, Function.comp_apply]
      simp only [hiff]

/-- **A new instruction has no target yet.** -/
private theorem targetsExact_code {c : CodeLine} {post : List Line}
    (hlines : S.lines = pre ++ .code c :: post) (h : TargetsExact earlier S pre) :
    TargetsExact earlier S (pre ++ [.code c]) := by
  have hrelocs : relocs (pre ++ [.code c]) = relocs pre :=
    List.filterMap_append.trans (List.append_nil _)
  have hlisted : listed (pre ++ [.code c]) = listed pre ++ c.listed.toList := listed_concat _ _
  rw [TargetsExact, stateAt_concat, hrelocs, hlisted, Line.apply, List.map_append, h,
    ← c.instruction_listed]
  cases hinstruction : c.instruction with
  | none =>
    rw [Option.map_none, Option.toList_none, Option.toList_none, List.append_nil]
    exact List.append_nil _
  | some instr =>
    rw [← c.instruction_listed, hinstruction] at hlisted
    -- the instruction of the line is the next one of the section
    have hlast : (listed (pre ++ [.code c]))[(listed pre).length]? = some instr.listed := by
      rw [hlisted, List.getElem?_append_right le_rfl, Nat.sub_self]
      rfl
    have hextends : Extends (listed (pre ++ [.code c])) S.instructions := by
      rw [Section.instructions, hlines.trans (List.append_cons pre _ post)]
      exact extends_listed _ post
    obtain ⟨I, hI, -⟩ := hextends _ _ hlast
    have htarget : callTarget (relocs pre) I = [] := callTarget_eq_nil fun r hr => by
      obtain ⟨front, back, rfl⟩ := List.append_of_mem (mem_relocs.mp hr)
      rw [List.append_assoc, List.cons_append] at hlines
      refine not_covers_of_le hlines ?_ hI
      obtain ⟨init, heq, hlength⟩ := listed_append front (.reloc r :: back)
      rw [heq, List.length_append, hlength]
      exact Nat.le_add_right _ _
    rw [Option.map_some, Option.toList_some, Option.toList_some, List.length_append,
      List.length_singleton, List.take_add_one, hI, List.map_append, List.append_assoc,
      Option.toList_some, List.map_singleton, List.map_singleton, htarget,
      CodeLine.callTarget_of_mem hinstruction]

private theorem targetsExact_concat {l : Line} {post : List Line}
    (hlines : S.lines = pre ++ l :: post)
    (hsets : ∀ r, l = .reloc r → ∀ i,
      SetsCallTarget (stateAt earlier pre).result r.offset.value i ↔
        IsCoveringCall earlier S r.offset.value i)
    (h : TargetsExact earlier S pre) : TargetsExact earlier S (pre ++ [l]) := by
  have hbytes : ∀ b : ByteLine, ((continueInstruction (stateAt earlier pre).result
      (stateAt earlier pre).prevColumnBytes b.address.value b.size).map Instruction.callTarget) =
      earlier.flatMap Section.callTargets ++
        (S.instructions.take (listed pre).length).map (callTarget (relocs pre)) := fun b =>
    (callTargets_continueInstruction _ _ _ _).trans h
  have hrelocs : (∀ r, l ≠ .reloc r) → relocs (pre ++ [l]) = relocs pre := fun hl => by
    rw [relocs, List.filterMap_append]
    cases l with
    | reloc r => exact absurd rfl (hl r)
    | _ => exact List.append_nil _
  cases l with
  | code c => exact targetsExact_code hlines h
  | reloc r => exact targetsExact_reloc h (hsets r rfl)
  | wrapped b =>
    have hlength : (listed (pre ++ [.wrapped b])).length = (listed pre).length := by
      rw [listed_concat]
      exact length_modifyLast _ _
    rw [TargetsExact, stateAt_concat, hlength, hrelocs fun _ => by simp]
    exact hbytes b
  | undecoded b =>
    rw [TargetsExact, stateAt_concat, listed_concat, hrelocs fun _ => by simp]
    exact hbytes b
  | other l =>
    rw [TargetsExact, stateAt_concat, listed_concat, hrelocs fun _ => by simp]
    exact h

private theorem targetsExact_lines
    (hstart : (resultBehind earlier).map Instruction.callTarget =
      earlier.flatMap Section.callTargets)
    (hsets : ∀ pre r post, S.lines = pre ++ .reloc r :: post → ∀ i,
      SetsCallTarget (stateAt earlier pre).result r.offset.value i ↔
        IsCoveringCall earlier S r.offset.value i)
    (pre : List Line) {post : List Line} (hlines : S.lines = pre ++ post) :
    TargetsExact earlier S pre := by
  induction pre using List.reverseRecOn generalizing post with
  | nil => exact hstart.trans (List.append_nil _).symm
  | append_singleton pre l ih =>
    rw [List.append_assoc, List.singleton_append] at hlines
    exact targetsExact_concat hlines (fun r hr => hsets pre r post (hr ▸ hlines)) (ih hlines)

/-- **The targets are exact** if every relocation sets the right one. -/
private theorem callTargets_resultBehind
    (hsets : ∀ earlier S pre r, L.At earlier S pre (.reloc r) → ∀ i,
      SetsCallTarget (stateAt earlier pre).result r.offset.value i ↔
        IsCoveringCall earlier S r.offset.value i)
    (earlier : List Section) {later : List Section} (hsections : L.sections = earlier ++ later) :
    (resultBehind earlier).map Instruction.callTarget = earlier.flatMap Section.callTargets := by
  induction earlier using List.reverseRecOn generalizing later with
  | nil => rfl
  | append_singleton earlier S ih =>
    rw [List.append_assoc, List.singleton_append] at hsections
    have htargets := targetsExact_lines (ih hsections)
      (fun pre r post hlines => hsets earlier S pre r ⟨later, post, hsections, hlines⟩)
      S.lines (List.append_nil _).symm
    rw [resultBehind_concat, htargets, List.flatMap_append, List.flatMap_singleton,
      Section.callTargets, Section.instructions, List.take_length]

end Listing

/-! ### The main result -/

/-- **A listing is parsed exactly if and only if it is unambiguous.** -/
theorem parsedExactly_iff (L : Listing) : L.ParsedExactly ↔ L.Unambiguous := by
  constructor
  · rintro ⟨⟨result, hparse, hlisted, -⟩, hrelocations⟩
    obtain rfl := Option.some.inj ((parseObjdumpOutput_text L).symm.trans hparse)
    have hexact : ∀ {earlier S pre l}, L.At earlier S pre l → IsExact earlier pre := fun hat =>
      isExact_of_at (fun _ _ _ _ hat hpre hpos => not_isMistaken hlisted hat hpre hpos) hat
    have hsets : ∀ {earlier S pre r}, L.At earlier S pre (.reloc r) → ∀ i,
        SetsCallTarget (stateAt earlier pre).result r.offset.value i ↔
          IsCoveringCall earlier S r.offset.value i := fun {earlier S pre r} hat i => by
      obtain ⟨result, hbefore, hiff⟩ := hrelocations earlier S pre r hat
      obtain rfl := Option.some.inj
        ((parseObjdumpOutput_linesBefore L earlier S pre).symm.trans hbefore)
      exact hiff i
    refine ⟨fun earlier S pre b hat hpos hcolumn I hI hstop => ?_,
      fun earlier S pre r hat => ?_, fun earlier S pre r hat => ?_⟩
    · exact not_isMistaken hlisted hat (hexact hat) hpos ⟨hcolumn, I, hI, hstop⟩
    · exact (unambiguous_of_isCoveringCall (hexact hat) (hsets hat)).1
    · exact (unambiguous_of_isCoveringCall (hexact hat) (hsets hat)).2
  · intro h
    have hmistaken : ∀ earlier S pre b, L.At earlier S pre (.undecoded b) → IsExact earlier pre →
        0 < b.size → ¬IsMistaken earlier pre b := fun earlier S pre b hat _ hpos hmistaken => by
      obtain ⟨hcolumn, I, hI, hstop⟩ := hmistaken
      exact h.undecoded earlier S pre b hat hpos hcolumn I hI hstop
    have hsets : ∀ earlier S pre r, L.At earlier S pre (.reloc r) → ∀ i,
        SetsCallTarget (stateAt earlier pre).result r.offset.value i ↔
          IsCoveringCall earlier S r.offset.value i := fun earlier S pre r hat => by
      obtain ⟨later, post, hsections, hlines⟩ := id hat
      exact isCoveringCall_of_unambiguous hlines (isExact_of_at hmistaken hat)
        (h.section_start earlier S pre r hat) (h.reloc_printed earlier S pre r hat)
    refine ⟨⟨_, parseObjdumpOutput_text L,
      listed_resultBehind hmistaken L.sections (List.append_nil _).symm,
      callTargets_resultBehind hsets L.sections (List.append_nil _).symm⟩,
      fun earlier S pre r hat => ⟨_, parseObjdumpOutput_linesBefore L earlier S pre, ?_⟩⟩
    exact hsets earlier S pre r hat

/-! ### A table in a section of its own -/

/-- `main`: a call of `f`. -/
def mainSection : Section where
  name := ".text".toList
  isPlain := by decide
  lines :=
    [.other (.label { digits := "00000000".toList } "main".toList (by decide)),
      .code { address := { digits := ['0'] }
              column := [⟨'b', '0', 1, rfl, rfl⟩, ⟨'1', '2', 1, rfl, rfl⟩, ⟨'0', '0', 1, rfl, rfl⟩,
                ⟨'0', '0', 1, rfl, rfl⟩]
              code := .instruction { mnemonic := call, operands := "\t#0\t\t;".toList } },
      .reloc { offset := { digits := ['2'] }, type := "MSP430_ABS16".toList, symbol := ['f'] }]
  wraps := trivial
  ordered := List.pairwise_singleton _ _
  relocsFollow := ⟨List.forall_mem_nil _, trivial⟩

/-- `table`: the address of `g`. -/
def tableSection : Section where
  name := ".text.table".toList
  isPlain := by decide
  lines :=
    [.other (.label { digits := "00000000".toList } "table".toList (by decide)),
      .code { address := { digits := ['0'] }
              column := [⟨'0', '0', 1, rfl, rfl⟩, ⟨'0', '0', 7, rfl, rfl⟩]
              code := .directive ".word\t0x0000; ????".toList (by decide) (by decide) },
      .reloc { offset := { digits := ['0'] }, type := "MSP430_ABS16".toList, symbol := ['g'] }]
  wraps := trivial
  ordered := List.Pairwise.nil
  relocsFollow := ⟨List.forall_mem_nil _, trivial⟩

/-- The listing of both. -/
def tableListing : Listing where
  preamble := [.blank, .fileFormat "t.o".toList "elf32-msp430".toList (by decide) (by decide)]
  sections := [mainSection, tableSection]

/-- **The relocation of the table is taken for one of the call.** -/
theorem table_is_not_parsed :
    (parseObjdumpOutput tableListing.text).map (·.map Instruction.callTarget) = some [['g']] ∧
      tableListing.callTargets = [['f']] ∧ ¬tableListing.ParsedExactly := by
  have hparse : (parseObjdumpOutput tableListing.text).map (·.map Instruction.callTarget) =
      some [['g']] := by decide +kernel
  have htargets : tableListing.callTargets = [['f']] := by decide +kernel
  refine ⟨hparse, htargets, fun h => ?_⟩
  obtain ⟨result, hresult, -, hcallTargets⟩ := h.instructions
  rw [hresult, Option.map_some, hcallTargets, htargets] at hparse
  exact absurd hparse (by decide)

end Bao.Disassembler
