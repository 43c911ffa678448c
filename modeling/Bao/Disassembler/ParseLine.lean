import Bao.Disassembler.Listing

/-!
# What the parser makes of one line

The lines of a listing are told apart: the parser takes each kind as what it is, but for the wrapped
and the undecoded lines, which look alike (`Line.apply`). So a listing is parsed without an error,
and what the parser returns is what its lines do one after the other (`parseObjdumpOutput_text`).
-/

namespace Bao.Disassembler

open Text Text.Pattern

/-! ### Characters -/

theorem ne_of_isHexDigit {c d : Char} (hc : isHexDigit c = true) (hd : isHexDigit d = false) :
    c ≠ d := by
  rintro rfl
  exact Bool.false_ne_true (hd.symm.trans hc)

theorem isSpace_of_isHexDigit {c : Char} (hc : isHexDigit c = true) : isSpace c = false := by
  rw [Bool.eq_false_iff]
  intro hspace
  simp only [isSpace, List.contains_iff_mem, List.mem_cons, List.not_mem_nil, or_false] at hspace
  rcases hspace with rfl | rfl | rfl | rfl | rfl | rfl <;> cases hc

theorem isSpace_of_isBlank {c : Char} (hc : isBlank c = true) : isSpace c = true := by
  rw [isBlank, Bool.or_eq_true, beq_iff_eq, beq_iff_eq] at hc
  rcases hc with rfl | rfl <;> rfl

theorem ne_newline_of_not_isSpace {c : Char} (hc : isSpace c = false) : c ≠ '\n' := by
  rintro rfl
  cases hc

theorem ne_newline_of_isBlank {c : Char} (hc : isBlank c = true) : c ≠ '\n' := by
  rintro rfl
  cases hc

theorem ne_newline_of_isWord {c : Char} (hc : isWord c = true) : c ≠ '\n' := by
  rintro rfl
  cases hc

theorem isAny_of_isWord {c : Char} (hc : isWord c = true) : isAny c = true := by
  rw [isAny, Bool.and_eq_true, bne_iff_ne, bne_iff_ne]
  constructor <;> rintro rfl <;> cases hc

/-! ### Cutting -/

theorem cut_of_not_mem {sep : Char} {s : List Char} (h : sep ∉ s) : cut sep s = (s, none) := by
  induction s with
  | nil => rfl
  | cons c s ih =>
    rw [List.mem_cons, not_or] at h
    rw [cut, if_neg (Ne.symm h.1), ih h.2]

theorem cut_append {sep : Char} {u v : List Char} (h : sep ∉ u) :
    cut sep (u ++ sep :: v) = (u, some v) := by
  induction u with
  | nil => rw [List.nil_append, cut, if_pos rfl]
  | cons c u ih =>
    rw [List.mem_cons, not_or] at h
    rw [List.cons_append, cut, if_neg (Ne.symm h.1), ih h.2]

private theorem getlinesFrom_append {line l s : List Char} (h : '\n' ∉ l) :
    getlinesFrom line (l ++ '\n' :: s) = (line ++ l) :: getlinesFrom [] s := by
  induction l generalizing line with
  | nil => rw [List.nil_append, getlinesFrom, if_pos rfl, List.append_nil]
  | cons c l ih =>
    rw [List.mem_cons, not_or] at h
    rw [List.cons_append, getlinesFrom, if_neg (Ne.symm h.1), ih h.2, List.append_assoc,
      List.singleton_append]

/-- **The lines are read back.** -/
theorem getlines_unlines {lines : List (List Char)} (h : ∀ l ∈ lines, '\n' ∉ l) :
    getlines (unlines lines) = lines := by
  induction lines with
  | nil => rfl
  | cons l lines ih =>
    obtain ⟨hl, hlines⟩ := List.forall_mem_cons.mp h
    rw [getlines, unlines, List.flatMap_cons, List.append_assoc, List.singleton_append,
      getlinesFrom_append hl, List.nil_append]
    exact congrArg (l :: ·) (ih hlines)

/-! ### Relocations -/

/-- What stands behind the blanks and hexadecimal digits at the start of a line. -/
private def afterDigits (s : List Char) : List Char :=
  (s.dropWhile isSpace).dropWhile isHexDigit

private theorem afterDigits_append {lead digits : List Char} {c : Char} {s : List Char}
    (hlead : ∀ c ∈ lead, isSpace c = true) (hne : digits ≠ [])
    (hdigits : ∀ c ∈ digits, isHexDigit c = true) (hc : isHexDigit c = false) :
    afterDigits (lead ++ (digits ++ c :: s)) = c :: s := by
  obtain ⟨d, digits, rfl⟩ := List.exists_cons_of_ne_nil hne
  have hd : isHexDigit d = true := hdigits d List.mem_cons_self
  rw [afterDigits, List.dropWhile_append_of_pos hlead, List.cons_append,
    List.dropWhile_cons_of_neg (by rw [isSpace_of_isHexDigit hd]; exact Bool.false_ne_true),
    ← List.cons_append, List.dropWhile_append_of_pos hdigits,
    List.dropWhile_cons_of_neg (by rw [hc]; exact Bool.false_ne_true)]

/-- In a relocation, the digits are followed by a colon, blanks and an `R`. -/
private theorem afterDigits_of_relocPattern {s : List Char} {m : Captures}
    (h : relocPattern.fullMatch s = some m) :
    ∃ c rest, afterDigits s = ':' :: c :: rest ∧ isSpace c = true ∧
      (rest.dropWhile isSpace).head? = some 'R' := by
  obtain ⟨lead, _, hlead, ⟨digits, _, hdigits, ⟨_, _, hcolon, ⟨gap, _, hgap, ⟨_, rest, hR, -, rfl⟩,
    rfl⟩, rfl⟩, rfl⟩, rfl⟩ := fullMatch_sound h
  obtain ⟨hne, hdigits⟩ := matches_many1.mp hdigits
  obtain ⟨hgapne, hgap⟩ := matches_many1.mp hgap
  obtain rfl := matches_lit.mp hcolon
  obtain rfl := matches_lit.mp hR
  obtain ⟨c, gap, rfl⟩ := List.exists_cons_of_ne_nil hgapne
  obtain ⟨hc, hgap⟩ := List.forall_mem_cons.mp hgap
  refine ⟨c, gap ++ 'R' :: rest, afterDigits_append hlead hne hdigits rfl, hc, ?_⟩
  rw [List.dropWhile_append_of_pos hgap]
  rfl

/-- A line is no relocation if no colon and blank follow the digits at its start, or no `R` behind
them. -/
private theorem relocPattern_eq_none {s rest : List Char} (hafter : afterDigits s = rest)
    (h : ∀ c rest', rest = ':' :: c :: rest' → isSpace c = true →
      (rest'.dropWhile isSpace).head? ≠ some 'R') : relocPattern.fullMatch s = none := by
  cases hmatch : relocPattern.fullMatch s with
  | none => rfl
  | some m =>
    obtain ⟨c, rest', hcolon, hc, hR⟩ := afterDigits_of_relocPattern hmatch
    exact absurd hR (h c rest' (hafter.symm.trans hcolon) hc)

/-- The first character of a text that does not start empty. -/
private theorem forall_mem_head {P : Char → Prop} {s t : List Char} (hne : s ≠ [])
    (h : ∀ c ∈ s, P c) : ∀ c ∈ (s ++ t).head?, P c := by
  intro c hc
  rw [List.head?_append_of_ne_nil _ hne] at hc
  exact h c (List.mem_of_mem_head? hc)

private theorem all_isSpace {s : List Char} (h : s.all isBlank = true) :
    ∀ c ∈ s, isSpace c = true :=
  fun c hc => isSpace_of_isBlank (List.all_eq_true.mp h c hc)

private theorem not_isSpace {s : List Char} (h : s.any isSpace = false) :
    ∀ c ∈ s, isSpace c = false :=
  fun c hc => Bool.eq_false_iff.mpr (List.any_eq_false.mp h c hc)

/-- **A relocation is read.** -/
theorem relocPattern_text (r : RelocLine) :
    ∃ m, relocPattern.fullMatch r.text = some m ∧ m 1 = r.offset.digits ∧ m 2 = r.symbol := by
  have htext : r.text = r.indent ++ (r.offset.digits ++ ([':'] ++ (r.gap ++ (['R'] ++ (['_'] ++
      (r.type ++ (r.sep ++ (r.symbol ++ ([] ++ []))))))))) := by
    simp [RelocLine.text]
  have hdigits := List.all_eq_true.mp r.offset.isHexDigit
  have htype := not_isSpace r.type_not_isSpace.2
  have hsymbol := not_isSpace r.symbol_not_isSpace.2
  rw [htext]
  refine ⟨Function.update (Function.update (fun _ => []) 1 r.offset.digits) 2 r.symbol,
    fullMatch_of_takes (takes_all_cons ?_ (takes_all_group ?_ (takes_all_cons takes_lit
    (takes_all_cons ?_ (takes_all_cons takes_lit (takes_all_cons takes_lit (takes_all_cons ?_
    (takes_all_cons ?_ (takes_all_group ?_ (takes_all_cons ?_ takes_all_nil)))))))))), ?_, ?_⟩
  · refine takes_many (all_isSpace r.indent_isBlank) ?_
    rw [List.append_nil]
    exact forall_mem_head r.offset.ne_nil fun c hc => isSpace_of_isHexDigit (hdigits c hc)
  · refine takes_many1 r.offset.ne_nil hdigits ?_
    rintro _ ⟨⟩
    rfl
  · refine takes_many1 r.gap_isBlank.1 (all_isSpace r.gap_isBlank.2) ?_
    rintro _ ⟨⟩
    rfl
  · refine takes_many1 r.type_not_isSpace.1 (fun c hc => by rw [htype c hc]; rfl) ?_
    rw [List.append_nil]
    exact forall_mem_head r.sep_isBlank.1 fun c hc => by
      rw [all_isSpace r.sep_isBlank.2 c hc]
      rfl
  · refine takes_many1 r.sep_isBlank.1 (all_isSpace r.sep_isBlank.2) ?_
    rw [List.append_nil]
    exact forall_mem_head r.symbol_not_isSpace.1 hsymbol
  · exact takes_many1 r.symbol_not_isSpace.1 (fun c hc => by rw [hsymbol c hc]; rfl)
      fun c hc => by cases hc
  · exact takes_many (List.forall_mem_nil _) fun c hc => by cases hc
  · rw [Function.update_of_ne (by decide), Function.update_self]
  · rw [Function.update_self]

/-! ### Addresses and columns -/

theorem mem_columnText {column : List ByteCell} {c : Char}
    (hc : c ∈ column.flatMap ByteCell.text) : isHexDigit c = true ∨ c = ' ' := by
  obtain ⟨cell, -, hc⟩ := List.mem_flatMap.mp hc
  rw [ByteCell.text, List.mem_cons, List.mem_cons] at hc
  rcases hc with rfl | rfl | hc
  · exact .inl cell.high_isHexDigit
  · exact .inl cell.low_isHexDigit
  · exact .inr (List.eq_of_mem_replicate hc)

/-- **The bytes of a column are counted.** -/
theorem countBytes_column (column : List ByteCell) :
    countBytes (column.flatMap ByteCell.text) = column.length := by
  have hcount : (column.flatMap ByteCell.text).countP isHexDigit = 2 * column.length := by
    induction column with
    | nil => rfl
    | cons cell column ih =>
      have hgap : (List.replicate cell.gap ' ').countP isHexDigit = 0 :=
        List.countP_eq_zero.mpr fun c hc => by
          rw [List.eq_of_mem_replicate hc]
          exact Bool.false_ne_true
      rw [List.flatMap_cons, List.countP_append, ih, ByteCell.text,
        List.countP_cons_of_pos cell.high_isHexDigit, List.countP_cons_of_pos cell.low_isHexDigit,
        hgap, List.length_cons]
      omega
  rw [countBytes, hcount, Nat.mul_div_cancel_left _ (by decide)]

theorem bytesPattern_column (column : List ByteCell) :
    (bytesPattern.fullMatch (column.flatMap ByteCell.text)).isSome = true := by
  rw [bytesPattern, fullMatch_of_takes (takes_many (fun c hc => ?_) fun c hc => by cases hc)]
  · rfl
  · rcases mem_columnText hc with hc | rfl
    · rw [hc]
      rfl
    · rfl

/-- **An address is read.** -/
theorem addrPattern_text (indent : ℕ) (address : HexNumber) :
    ∃ m, addrPattern.fullMatch (List.replicate indent ' ' ++ (address.digits ++ [':'])) = some m ∧
      m 1 = address.digits := by
  have hdigits := List.all_eq_true.mp address.isHexDigit
  refine ⟨Function.update (fun _ => []) 1 address.digits, fullMatch_of_takes (takes_all_cons ?_
    (takes_all_group ?_ (takes_all_cons (v := []) takes_lit takes_all_nil))),
    Function.update_self ..⟩
  · refine takes_many (fun c hc => by rw [List.eq_of_mem_replicate hc]; rfl) ?_
    rw [List.append_nil]
    exact forall_mem_head address.ne_nil fun c hc => isSpace_of_isHexDigit (hdigits c hc)
  · refine takes_many1 address.ne_nil hdigits ?_
    rintro _ ⟨⟩
    rfl

theorem stoull_digits (n : HexNumber) : stoull n.digits = some n.value := if_pos n.value_lt

/-! ### Mnemonics -/

/-- The optional suffix takes something, or nothing. -/
private theorem exists_takes_suffix (s : List Char) (m : Captures) :
    ∃ u v m', s = u ++ v ∧ m' 1 = m 1 ∧
      Takes (.opt (.all [.lit '.', .group 2 (.many1 isWord)])) u v m m' := by
  by_cases hsuffix : ∃ rest, s = '.' :: rest ∧ rest.takeWhile isWord ≠ []
  · obtain ⟨rest, rfl, hne⟩ := hsuffix
    refine ⟨['.'] ++ (rest.takeWhile isWord ++ []), rest.dropWhile isWord,
      Function.update m 2 (rest.takeWhile isWord), ?_, Function.update_of_ne (by decide) _ _,
      takes_alt_left (takes_all_cons takes_lit (takes_all_group (takes_many1 hne ?_ ?_)
        takes_all_nil))⟩
    · rw [List.append_nil, List.append_assoc, List.takeWhile_append_dropWhile]
      rfl
    · exact fun c hc => List.mem_takeWhile_imp hc
    · intro c hc
      have hnot := List.head?_dropWhile_not isWord rest
      rw [List.nil_append, Option.mem_def] at hc
      rwa [hc] at hnot
  · refine ⟨[], s, m, rfl, rfl, takes_alt_right (fun k => ?_) takes_empty⟩
    rw [Option.eq_none_iff_forall_ne_some]
    intro r hrun
    obtain ⟨-, rest, -, ⟨_, -, hdot, ⟨word, -, hword, rfl, rfl⟩, rfl⟩, -, hs⟩ := run_sound hrun
    obtain rfl := matches_lit.mp hdot
    obtain ⟨hne, hword⟩ := matches_many1.mp hword
    refine hsuffix ⟨word ++ rest, by simpa using hs, ?_⟩
    obtain ⟨c, word, rfl⟩ := List.exists_cons_of_ne_nil hne
    rw [List.cons_append, List.takeWhile_cons_of_pos (hword c List.mem_cons_self)]
    exact List.cons_ne_nil _ _

/-- **A mnemonic is read** up to its suffix. -/
theorem mnemonicPattern_append {mnemonic rest : List Char} (hne : mnemonic ≠ [])
    (hword : ∀ c ∈ mnemonic, isWord c = true) (hhead : ∀ c ∈ rest.head?, isWord c = false)
    (hany : ∀ c ∈ rest, isAny c = true) :
    ∃ m, mnemonicPattern.fullMatch (mnemonic ++ rest) = some m ∧ m 1 = mnemonic := by
  obtain ⟨u, v, m, rfl, hm, hsuffix⟩ :=
    exists_takes_suffix rest (Function.update (fun _ => []) 1 mnemonic)
  have htext : mnemonic ++ (u ++ v) = mnemonic ++ (u ++ (v ++ [])) := by rw [List.append_nil]
  rw [htext]
  refine ⟨Function.update m 3 v, fullMatch_of_takes (takes_all_group (takes_many1 hne hword ?_)
    (takes_seq ?_ (takes_all_group ?_ takes_all_nil))), ?_⟩
  · simpa using hhead
  · simpa using hsuffix
  · exact takes_many (fun c hc => hany c (List.mem_append_right u hc)) fun c hc => by cases hc
  · rw [Function.update_of_ne (by decide), hm, Function.update_self]

/-- A text without a mnemonic. -/
theorem mnemonicPattern_eq_none {s : List Char} (hhead : ∀ c ∈ s.head?, isWord c = false) :
    mnemonicPattern.fullMatch s = none := by
  rw [Option.eq_none_iff_forall_ne_some]
  intro m hmatch
  obtain ⟨mnemonic, rest, hmnemonic, -, rfl⟩ := fullMatch_sound hmatch
  obtain ⟨hne, hword⟩ := matches_many1.mp hmnemonic
  obtain ⟨c, mnemonic, rfl⟩ := List.exists_cons_of_ne_nil hne
  exact Bool.false_ne_true ((hhead c rfl).symm.trans (hword c List.mem_cons_self))

/-! ### Lines -/

/-- The instruction that the parser makes of a line with a text. -/
def CodeLine.instruction (c : CodeLine) : Option Instruction :=
  parseInstruction c.address.value c.size c.code.text

/-- **What the parser makes of a line.** -/
def Line.apply (st : ParserState) : Line → ParserState
  | .other _ => ⟨st.result, 0⟩
  | .code c => ⟨st.result ++ c.instruction.toList, c.size⟩
  | .wrapped b | .undecoded b =>
    ⟨continueInstruction st.result st.prevColumnBytes b.address.value b.size, b.size⟩
  | .reloc r => { st with result := attachRelocation st.result r.offset.value r.symbol }

/-- **A line with a text gives an instruction exactly if the text starts with a mnemonic.** -/
theorem CodeLine.instruction_listed (c : CodeLine) :
    c.instruction.map Instruction.listed = c.listed := by
  rw [CodeLine.instruction, CodeLine.listed, parseInstruction]
  cases hcode : c.code with
  | instruction t =>
    have hhead : ∀ d ∈ t.tail.head?, isWord d = false := by
      rw [InstructionText.tail]
      cases hsuffix : t.suffix with
      | none =>
        intro d hd
        have hnot := t.operands_head
        rw [show t.operands.head? = some d from hd] at hnot
        exact hnot
      | some s =>
        rintro _ ⟨⟩
        rfl
    have hany : ∀ d ∈ t.tail, isAny d = true := fun d hd => by
      rcases List.mem_append.mp hd with hd | hd
      · cases hsuffix : t.suffix with
        | none =>
          rw [hsuffix] at hd
          cases hd
        | some s =>
          have hword := t.suffix_isWord
          rw [hsuffix] at hd hword
          rcases List.mem_cons.mp hd with rfl | hd
          · rfl
          · exact isAny_of_isWord (List.all_eq_true.mp hword d hd)
      · exact List.all_eq_true.mp t.operands_isAny d hd
    obtain ⟨m, hm, hmnemonic⟩ := mnemonicPattern_append t.ne_nil
      (List.all_eq_true.mp t.isWord) hhead hany
    simp only [CodeText.text, hm, Option.map_some, Instruction.listed, hmnemonic]
  | directive text hany hhead =>
    have hnot : ∀ d ∈ text.head?, isWord d = false := fun d hd => by
      rw [show text.head? = some d from hd] at hhead
      exact hhead
    simp only [CodeText.text, mnemonicPattern_eq_none hnot, Option.map_none]

theorem CodeLine.callTarget_of_mem {c : CodeLine} {instr : Instruction}
    (h : instr ∈ c.instruction) : instr.callTarget = [] := by
  rw [CodeLine.instruction, parseInstruction, Option.mem_def, Option.map_eq_some_iff] at h
  obtain ⟨m, -, rfl⟩ := h
  rfl

private theorem ByteLine.text_append (b : ByteLine) (rest : List Char) :
    b.text ++ rest = (List.replicate b.indent ' ' ++ (b.address.digits ++ [':'])) ++
      '\t' :: (b.column.flatMap ByteCell.text ++ rest) := by
  simp [ByteLine.text]

private theorem tab_notMem_address (indent : ℕ) (address : HexNumber) :
    '\t' ∉ List.replicate indent ' ' ++ (address.digits ++ [':']) := by
  simp only [List.mem_append, List.mem_replicate, List.mem_singleton, not_or]
  refine ⟨fun h => absurd h.2 (by decide), fun h => ?_, by decide⟩
  exact ne_of_isHexDigit (List.all_eq_true.mp address.isHexDigit _ h) rfl rfl

private theorem tab_notMem_column (column : List ByteCell) :
    '\t' ∉ column.flatMap ByteCell.text := fun h => by
  rcases mem_columnText h with hc | hc
  · cases hc
  · exact absurd hc (by decide)

/-- A line with an address and bytes is no relocation. -/
private theorem relocPattern_byteLine (b : ByteLine) {rest : List Char}
    (h : b.column ≠ [] ∨ rest = []) : relocPattern.fullMatch (b.text ++ rest) = none := by
  have hafter : afterDigits (b.text ++ rest) =
      ':' :: ('\t' :: (b.column.flatMap ByteCell.text ++ rest)) := by
    rw [ByteLine.text, List.append_assoc, List.append_assoc]
    exact afterDigits_append (fun c hc => by rw [List.eq_of_mem_replicate hc]; rfl)
      b.address.ne_nil (List.all_eq_true.mp b.address.isHexDigit) rfl
  refine relocPattern_eq_none hafter fun c rest' heq _ hR => ?_
  obtain ⟨rfl, rfl⟩ := List.cons.inj (List.cons.inj heq).2
  cases hcolumn : b.column with
  | nil =>
    rw [hcolumn, h.resolve_left (not_not_intro hcolumn)] at hR
    cases hR
  | cons cell column =>
    rw [hcolumn, List.flatMap_cons, ByteCell.text, List.cons_append, List.cons_append,
      List.dropWhile_cons_of_neg (by simp [isSpace_of_isHexDigit cell.high_isHexDigit]),
      List.head?_cons] at hR
    exact ne_of_isHexDigit cell.high_isHexDigit rfl (Option.some.inj hR)

/-- **A line with an address** is parsed behind it. -/
private theorem parseLine_byteLine (st : ParserState) (b : ByteLine) {rest : List Char}
    (h : b.column ≠ [] ∨ rest = []) :
    parseLine st (b.text ++ rest) = some (parseColumn st.result st.prevColumnBytes b.address.value
      (b.column.flatMap ByteCell.text ++ rest)) := by
  obtain ⟨m, hm, hdigits⟩ := addrPattern_text b.indent b.address
  rw [parseLine, relocPattern_byteLine b h, ByteLine.text_append,
    cut_append (tab_notMem_address _ _)]
  simp only [hm, hdigits, stoull_digits]
  rfl

/-- A line with an address and bytes only. -/
private theorem parseLine_bytesOnly (st : ParserState) (b : ByteLine) :
    parseLine st b.text = some
      ⟨continueInstruction st.result st.prevColumnBytes b.address.value b.size, b.size⟩ := by
  have htext := parseLine_byteLine st b (Or.inr (Eq.refl []))
  rw [List.append_nil, List.append_nil] at htext
  rw [htext, parseColumn, cut_of_not_mem (tab_notMem_column _)]
  simp only [bytesPattern_column, if_true, countBytes_column]
  rfl

/-- A line that is no relocation and has no tab is skipped. -/
private theorem parseLine_of_tab_notMem {st : ParserState} {line : List Char}
    (hreloc : relocPattern.fullMatch line = none) (htab : '\t' ∉ line) :
    parseLine st line = some ⟨st.result, 0⟩ := by
  rw [parseLine, hreloc, cut_of_not_mem htab]
  rfl

/-- What is no relocation because no colon follows the digits at its start. -/
private theorem relocPattern_eq_none_of_ne {line : List Char} {c : Char} {rest : List Char}
    (hafter : afterDigits line = c :: rest) (hc : c ≠ ':') : relocPattern.fullMatch line = none :=
  relocPattern_eq_none hafter fun _ _ heq => absurd (List.cons.inj heq).1 hc

private theorem tab_notMem_of_isPlain {s : List Char} (h : isPlain s = true) : '\t' ∉ s := by
  intro hs
  have htab := List.all_eq_true.mp h _ hs
  cases htab

private theorem parseLine_other (st : ParserState) (l : OtherLine) :
    parseLine st l.text = some ⟨st.result, 0⟩ := by
  cases l with
  | label address name hplain =>
    have hafter : afterDigits ([] ++ (address.digits ++ ' ' :: '<' :: (name ++ ['>', ':']))) =
        ' ' :: '<' :: (name ++ ['>', ':']) := afterDigits_append (List.forall_mem_nil _)
      address.ne_nil (List.all_eq_true.mp address.isHexDigit) rfl
    refine parseLine_of_tab_notMem (relocPattern_eq_none_of_ne hafter (by decide)) ?_
    simp only [OtherLine.text, List.mem_append, List.mem_cons, not_or]
    refine ⟨fun h => ?_, by decide, by decide, tab_notMem_of_isPlain hplain, by decide⟩
    exact ne_of_isHexDigit (List.all_eq_true.mp address.isHexDigit _ h) rfl rfl
  | elision =>
    have hafter : afterDigits ['\t', '.', '.', '.'] = ['.', '.', '.'] := rfl
    have hreloc : relocPattern.fullMatch ['\t', '.', '.', '.'] = none :=
      relocPattern_eq_none_of_ne hafter (by decide)
    rw [OtherLine.text, parseLine, hreloc]
    rfl
  | blank => rfl

/-- **The parser tells the lines apart.** -/
theorem parseLine_text (st : ParserState) (l : Line) : parseLine st l.text = some (l.apply st) := by
  cases l with
  | other l => exact parseLine_other st l
  | code c =>
    rw [Line.text, parseLine_byteLine st c.toByteLine (.inl c.column_ne_nil), parseColumn,
      cut_append (tab_notMem_column _)]
    simp only [bytesPattern_column, if_true, countBytes_column]
    rfl
  | wrapped b => exact parseLine_bytesOnly st b
  | undecoded b => exact parseLine_bytesOnly st b
  | reloc r =>
    obtain ⟨m, hm, hoffset, hsymbol⟩ := relocPattern_text r
    rw [Line.text, parseLine, hm]
    simp only [hoffset, hsymbol, stoull_digits]
    rfl

private theorem headerText_eq :
    Section.headerText = 'D' :: 'i' :: "sassembly of section ".toList := rfl

theorem parseLine_header (st : ParserState) (S : Section) :
    parseLine st S.header = some ⟨st.result, 0⟩ := by
  have htab : '\t' ∉ Section.headerText := by decide +kernel
  have hafter : afterDigits ([] ++ (['D'] ++ 'i' ::
      ("sassembly of section ".toList ++ (S.name ++ [':'])))) =
      'i' :: ("sassembly of section ".toList ++ (S.name ++ [':'])) :=
    afterDigits_append (List.forall_mem_nil _) (List.cons_ne_nil _ _)
      (List.forall_mem_singleton.mpr rfl) rfl
  refine parseLine_of_tab_notMem ?_ ?_
  · rw [Section.header, headerText_eq]
    exact relocPattern_eq_none_of_ne hafter (by decide)
  · rw [Section.header, List.mem_append, List.mem_append, not_or, not_or]
    exact ⟨htab, tab_notMem_of_isPlain S.isPlain, by decide⟩

/-- What stands behind the digits of a file name without white space and a colon. -/
private theorem afterDigits_file {file s : List Char} (h : ∀ c ∈ file, isSpace c = false) :
    afterDigits (file ++ ':' :: s) = file.dropWhile isHexDigit ++ ':' :: s := by
  have hspace : (file ++ ':' :: s).dropWhile isSpace = file ++ ':' :: s := by
    cases file with
    | nil => rfl
    | cons c file =>
      exact List.dropWhile_cons_of_neg (by rw [h c List.mem_cons_self]; exact Bool.false_ne_true)
  rw [afterDigits, hspace, List.dropWhile_append]
  split_ifs with hempty
  · rw [List.isEmpty_iff.mp hempty]
    rfl
  · rfl

theorem parseLine_preamble (st : ParserState) (l : PreambleLine) :
    parseLine st l.text = some ⟨st.result, 0⟩ := by
  cases l with
  | blank => rfl
  | fileFormat file format hfile hformat =>
    have hspace := not_isSpace hfile
    have htab : '\t' ∉ PreambleLine.formatText := by decide +kernel
    refine parseLine_of_tab_notMem (relocPattern_eq_none (afterDigits_file hspace) ?_) ?_
    · intro c rest heq hc hR
      have hsub : ∀ d ∈ file.dropWhile isHexDigit, isSpace d = false := fun d hd =>
        hspace d ((List.dropWhile_sublist _).mem hd)
      rcases hdrop : file.dropWhile isHexDigit with _ | ⟨d, _ | ⟨e, digits⟩⟩
      · rw [hdrop] at heq
        obtain ⟨rfl, rfl⟩ := List.cons.inj (List.cons.inj heq).2
        cases hR
      · rw [hdrop] at heq
        obtain ⟨rfl, -⟩ := List.cons.inj (List.cons.inj heq).2
        cases hc
      · rw [hdrop] at heq hsub
        obtain ⟨rfl, -⟩ := List.cons.inj (List.cons.inj heq).2
        exact Bool.false_ne_true
          ((hsub _ (List.mem_cons_of_mem _ List.mem_cons_self)).symm.trans hc)
    · rw [PreambleLine.text, List.mem_append, List.mem_cons, List.mem_append, not_or, not_or,
        not_or]
      exact ⟨fun h => Bool.false_ne_true ((hspace _ h).symm.trans rfl), by decide, htab,
        tab_notMem_of_isPlain hformat⟩

/-! ### Listings -/

private theorem newline_notMem_of_isPlain {s : List Char} (h : isPlain s = true) : '\n' ∉ s := by
  intro hs
  have hnewline := List.all_eq_true.mp h _ hs
  cases hnewline

private theorem newline_notMem_digits (n : HexNumber) : '\n' ∉ n.digits := fun h =>
  ne_of_isHexDigit (List.all_eq_true.mp n.isHexDigit _ h) rfl rfl

private theorem newline_notMem_of_isBlank {s : List Char} (h : s.all isBlank = true) : '\n' ∉ s :=
  fun hs => ne_newline_of_isBlank (List.all_eq_true.mp h _ hs) rfl

private theorem newline_notMem_of_isSpace {s : List Char} (h : s.any isSpace = false) : '\n' ∉ s :=
  fun hs => ne_newline_of_not_isSpace (not_isSpace h _ hs) rfl

private theorem newline_notMem_of_isAny {s : List Char} (h : s.all isAny = true) : '\n' ∉ s :=
  fun hs => by
    have hany := List.all_eq_true.mp h _ hs
    cases hany

private theorem newline_notMem_of_isWord {s : List Char} (h : s.all isWord = true) : '\n' ∉ s :=
  fun hs => ne_newline_of_isWord (List.all_eq_true.mp h _ hs) rfl

private theorem newline_notMem_byteLine (b : ByteLine) : '\n' ∉ b.text := by
  have hcolumn : '\n' ∉ b.column.flatMap ByteCell.text := fun h => by
    rcases mem_columnText h with hc | hc
    · cases hc
    · exact absurd hc (by decide)
  simp only [ByteLine.text, List.mem_append, List.mem_cons, not_or]
  exact ⟨⟨fun h => absurd (List.eq_of_mem_replicate h) (by decide), newline_notMem_digits _⟩,
    by decide, by decide, hcolumn⟩

private theorem newline_notMem_code (code : CodeText) : '\n' ∉ code.text := by
  cases code with
  | directive text hany hhead => exact newline_notMem_of_isAny hany
  | instruction t =>
    rw [CodeText.text, InstructionText.tail, List.mem_append, List.mem_append, not_or, not_or]
    refine ⟨newline_notMem_of_isWord t.isWord, ?_, newline_notMem_of_isAny t.operands_isAny⟩
    have hword := t.suffix_isWord
    cases hsuffix : t.suffix with
    | none => exact List.not_mem_nil
    | some s =>
      rw [hsuffix] at hword
      rw [Option.elim_some, List.mem_cons, not_or]
      exact ⟨by decide, newline_notMem_of_isWord hword⟩

/-- A line of a section has no end of line inside. -/
private theorem newline_notMem_line (l : Line) : '\n' ∉ l.text := by
  cases l with
  | other l =>
    cases l with
    | label address name hplain =>
      simp only [Line.text, OtherLine.text, List.mem_append, List.mem_cons, not_or]
      exact ⟨newline_notMem_digits address, by decide, by decide, newline_notMem_of_isPlain hplain,
        by decide⟩
    | elision => exact (by decide : '\n' ∉ ['\t', '.', '.', '.'])
    | blank => exact List.not_mem_nil
  | code c =>
    rw [Line.text, List.mem_append, List.mem_cons, not_or, not_or]
    exact ⟨newline_notMem_byteLine _, by decide, newline_notMem_code _⟩
  | wrapped b => exact newline_notMem_byteLine b
  | undecoded b => exact newline_notMem_byteLine b
  | reloc r =>
    simp only [Line.text, RelocLine.text, List.mem_append, List.mem_cons, not_or]
    exact ⟨newline_notMem_of_isBlank r.indent_isBlank, newline_notMem_digits _, by decide,
      newline_notMem_of_isBlank r.gap_isBlank.2, by decide, by decide,
      newline_notMem_of_isSpace r.type_not_isSpace.2, newline_notMem_of_isBlank r.sep_isBlank.2,
      newline_notMem_of_isSpace r.symbol_not_isSpace.2⟩

private theorem newline_notMem_header (S : Section) : '\n' ∉ S.header := by
  have hnewline : '\n' ∉ Section.headerText := by decide +kernel
  rw [Section.header, List.mem_append, List.mem_append, not_or, not_or]
  exact ⟨hnewline, newline_notMem_of_isPlain S.isPlain, by decide⟩

private theorem newline_notMem_preamble (l : PreambleLine) : '\n' ∉ l.text := by
  cases l with
  | blank => exact List.not_mem_nil
  | fileFormat file format hfile hformat =>
    have hnewline : '\n' ∉ PreambleLine.formatText := by decide +kernel
    rw [PreambleLine.text, List.mem_append, List.mem_cons, List.mem_append, not_or, not_or, not_or]
    exact ⟨newline_notMem_of_isSpace hfile, by decide, hnewline, newline_notMem_of_isPlain hformat⟩

/-- What the parser makes of the lines of a section. -/
def applyLines (st : ParserState) (lines : List Line) : ParserState := lines.foldl Line.apply st

/-- What it makes of a section. -/
def applySection (st : ParserState) (S : Section) : ParserState :=
  applyLines ⟨st.result, 0⟩ S.lines

/-- The instructions of some sections. -/
def resultBehind (earlier : List Section) : List Instruction :=
  (earlier.foldl applySection {}).result

/-- The state behind the lines `pre` of the section after `earlier`. -/
def stateAt (earlier : List Section) (pre : List Line) : ParserState :=
  applyLines ⟨resultBehind earlier, 0⟩ pre

theorem resultBehind_concat (earlier : List Section) (S : Section) :
    resultBehind (earlier ++ [S]) = (stateAt earlier S.lines).result := by
  rw [resultBehind, List.foldl_append]
  rfl

theorem stateAt_concat (earlier : List Section) (pre : List Line) (l : Line) :
    stateAt earlier (pre ++ [l]) = l.apply (stateAt earlier pre) := by
  rw [stateAt, applyLines, List.foldl_append]
  rfl

private theorem foldlM_lines (st : ParserState) (lines : List Line) :
    (lines.map Line.text).foldlM parseLine st = some (applyLines st lines) := by
  induction lines generalizing st with
  | nil => rfl
  | cons l lines ih =>
    rw [List.map_cons, List.foldlM_cons, parseLine_text, Option.bind_eq_bind, Option.bind_some, ih]
    rfl

private theorem foldlM_preamble (lines : List PreambleLine) :
    (lines.map PreambleLine.text).foldlM parseLine {} = some {} := by
  induction lines with
  | nil => rfl
  | cons l lines ih =>
    rw [List.map_cons, List.foldlM_cons, parseLine_preamble, Option.bind_eq_bind, Option.bind_some]
    exact ih

private theorem foldlM_sections (st : ParserState) (sections : List Section) :
    (sections.flatMap Section.texts).foldlM parseLine st =
      some (sections.foldl applySection st) := by
  induction sections generalizing st with
  | nil => rfl
  | cons S sections ih =>
    rw [List.flatMap_cons, List.foldlM_append, Section.texts, List.foldlM_cons, parseLine_header,
      Option.bind_eq_bind, Option.bind_some, foldlM_lines, Option.bind_some, ih]
    rfl

private theorem newline_notMem_textsBefore (L : Listing) (earlier : List Section) :
    ∀ line ∈ L.textsBefore earlier, '\n' ∉ line := by
  intro line hline
  rw [Listing.textsBefore, List.mem_append, List.mem_map, List.mem_flatMap] at hline
  rcases hline with ⟨l, -, rfl⟩ | ⟨S, -, hline⟩
  · exact newline_notMem_preamble l
  · rcases List.mem_cons.mp hline with rfl | hline
    · exact newline_notMem_header S
    · obtain ⟨l, -, rfl⟩ := List.mem_map.mp hline
      exact newline_notMem_line l

private theorem foldlM_textsBefore (L : Listing) (earlier : List Section) :
    (L.textsBefore earlier).foldlM parseLine {} = some (earlier.foldl applySection {}) := by
  rw [Listing.textsBefore, List.foldlM_append, foldlM_preamble, Option.bind_eq_bind,
    Option.bind_some, foldlM_sections]

/-- **A listing is parsed** line by line. -/
theorem parseObjdumpOutput_text (L : Listing) :
    parseObjdumpOutput L.text = some (resultBehind L.sections) := by
  rw [parseObjdumpOutput, Listing.text, getlines_unlines (newline_notMem_textsBefore L _),
    foldlM_textsBefore]
  rfl

/-- The first lines of a listing are parsed line by line. -/
theorem parseObjdumpOutput_linesBefore (L : Listing) (earlier : List Section) (S : Section)
    (pre : List Line) :
    parseObjdumpOutput (unlines (L.textsBefore earlier ++ S.header :: pre.map Line.text)) =
      some (stateAt earlier pre).result := by
  have hlines : ∀ line ∈ L.textsBefore earlier ++ S.header :: pre.map Line.text, '\n' ∉ line := by
    intro line hline
    rw [List.mem_append, List.mem_cons, List.mem_map] at hline
    rcases hline with hline | rfl | ⟨l, -, rfl⟩
    · exact newline_notMem_textsBefore L earlier line hline
    · exact newline_notMem_header S
    · exact newline_notMem_line l
  rw [parseObjdumpOutput, getlines_unlines hlines, List.foldlM_append, foldlM_textsBefore,
    Option.bind_eq_bind, Option.bind_some, List.foldlM_cons, parseLine_header, Option.bind_eq_bind,
    Option.bind_some, foldlM_lines]
  rfl

end Bao.Disassembler
