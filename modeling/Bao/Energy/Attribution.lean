import Bao.Energy.Analyzer

/-!
# Which block an instruction is charged to

An instruction should be charged to one block at most, the one that a row of the line table of its
own section names (`LineNames`), and a call of `.text+offset` should be resolved to the function of
section `.text` that contains the offset.

The analyzer matches instructions, rows and labels by their addresses alone. In an object file with
one text section that is enough (`attribution_exact_iff`). With a second section, the two functions
at address zero share their addresses: only one of them is found, and the instructions of both are
charged to it. Calls need one thing more, since the labels for calls are not filtered: a local label
inside a function hides the function.
-/

namespace Bao.Energy

open Addressing

/-! ### What the analyzer should do -/

/-- The labels of a section that start a function. -/
def TextSection.functionLabels (s : TextSection) : List Label :=
  s.labels.filter fun label => !isLocalLabel label

/-- The function of a section that contains an address. -/
def TextSection.FunctionAt (s : TextSection) (address : ℕ) (f : Label) : Prop :=
  f ∈ s.functionLabels ∧ f.1 ≤ address ∧ ∀ g ∈ s.functionLabels, g.1 ≤ address → g.1 ≤ f.1

/-- **The block that the line table of a section names for an address**: the last row before the
address, inside the function that contains it. An unmapped row takes its block from the mapped rows
around it. -/
def TextSection.LineNames (s : TextSection) (address : ℕ) (func : String) (bb : ℕ) : Prop :=
  ∃ f, s.FunctionAt address f ∧ f.2 = func ∧
    ∃ e ∈ s.lines, f.1 ≤ e.address ∧ e.address ≤ address ∧
      (∀ e' ∈ s.lines, e'.address ≤ address → e'.address ≤ e.address) ∧
      (e.line ≠ 0 → bb = e.line) ∧ (e.line = 0 → bb ≤ 1 ∨ ∃ e' ∈ s.lines, bb = e'.line)

/-- A call of `.text+offset`. -/
def Instruction.CallsText (i : Instruction) (offset : ℕ) : Prop :=
  i.mnemonic = "call" ∧ i.callTarget.symbol = ".text" ∧ i.callTarget.offset.getD 0 = offset

/-- **Energy attribution is exact.** -/
structure AttributionExact (sort : List LineEntry → List LineEntry) (obj : ObjectFile) : Prop where
  /-- An instruction is charged at most once. -/
  once : ∀ s ∈ obj, ∀ i ∈ s.instructions, ∀ func bb,
    chargeCount (parse sort obj) func bb i.address ≤ 1
  /-- It is charged to one block at most. -/
  one_block : ∀ s ∈ obj, ∀ i ∈ s.instructions, ∀ func bb func' bb',
    0 < chargeCount (parse sort obj) func bb i.address →
    0 < chargeCount (parse sort obj) func' bb' i.address → func = func' ∧ bb = bb'
  /-- The block is the one that the line table of its own section names. -/
  own_line : ∀ s ∈ obj, ∀ i ∈ s.instructions, ∀ func bb,
    0 < chargeCount (parse sort obj) func bb i.address → s.LineNames i.address func bb
  /-- A call of `.text+offset` goes to the function of section `.text` that contains the offset. -/
  calls : ∀ i ∈ obj.instructions, ∀ offset, i.CallsText offset →
    ∀ t ∈ obj, t.name = ".text" → (∃ f, t.FunctionAt offset f) →
    ∃ f, t.FunctionAt offset f ∧
      (resolveCallTarget (parseFunctionLabels obj.labels) i).callTarget = ⟨f.2, none⟩

/-- What `std::sort` by address promises. -/
def SortsByAddress (sort : List LineEntry → List LineEntry) : Prop :=
  ∀ l, (sort l).Perm l ∧ (sort l).Pairwise fun e e' => e.address ≤ e'.address

/-- The label that a call of an offset is resolved to: of the labels at the largest address up to
the offset, the one listed last. -/
def LastLabel (labels : List Label) (offset : ℕ) (label : Label) : Prop :=
  ∃ before after, labels = before ++ label :: after ∧ label.1 ≤ offset ∧
    (∀ g ∈ before, g.1 ≤ offset → g.1 ≤ label.1) ∧ ∀ g ∈ after, g.1 ≤ offset → g.1 < label.1

/-- No local label hides a function that is called by its offset. -/
def ObjectFile.CallsUnhidden (obj : ObjectFile) : Prop :=
  ∀ i ∈ obj.instructions, ∀ offset, i.CallsText offset →
    ∀ t ∈ obj, t.name = ".text" → (∃ f, t.FunctionAt offset f) →
    ∀ label, LastLabel obj.labels offset label → isLocalLabel label = false

/-- **Object files of the compiler**: the addresses of every section start from zero, with a
function, its first instruction and its first row, and the symbols of functions are distinct. -/
structure ObjectFile.WellFormed (obj : ObjectFile) : Prop where
  function_zero : ∀ s ∈ obj, ∃ f ∈ s.functionLabels, f.1 = 0
  instruction_zero : ∀ s ∈ obj, ∃ i ∈ s.instructions, i.address = 0
  line_zero : ∀ s ∈ obj, ∃ e ∈ s.lines, e.address = 0
  names_nodup : ((obj.flatMap TextSection.functionLabels).map Prod.snd).Nodup

/-! ### Charges of a function -/

/-- The ranges of a block that contain an address. -/
private def containing (a : ℕ) (ranges : List AddressRange) : ℕ :=
  (ranges.filter fun range => range.start ≤ a ∧ a < range.stop).length

private theorem containing_cons (a : ℕ) (r : AddressRange) (ranges : List AddressRange) :
    containing a (r :: ranges) =
      (if r.start ≤ a ∧ a < r.stop then 1 else 0) + containing a ranges := by
  by_cases h : r.start ≤ a ∧ a < r.stop
  · rw [containing, List.filter_cons_of_pos (by simpa using h), List.length_cons, if_pos h,
      Nat.add_comm]
    rfl
  · rw [containing, List.filter_cons_of_neg (by simpa using h), if_neg h, Nat.zero_add]
    rfl

/-- No range is empty. -/
private def Proper (ranges : List AddressRange) : Prop := ∀ r ∈ ranges, r.start < r.stop

/-- Joining ranges adds the addresses of the new one. -/
private theorem containing_mergeRange {startAddr endAddr : ℕ} (hlt : startAddr < endAddr)
    {ranges : List AddressRange} (h : Proper ranges) (a : ℕ) :
    Proper (mergeRange startAddr endAddr ranges) ∧
      containing a (mergeRange startAddr endAddr ranges) =
        containing a ranges + if startAddr ≤ a ∧ a < endAddr then 1 else 0 := by
  induction ranges with
  | nil =>
    refine ⟨by simpa [Proper, mergeRange] using hlt, ?_⟩
    rw [mergeRange, containing_cons, Nat.add_comm]
  | cons r ranges ih =>
    obtain ⟨hr, hranges⟩ := List.forall_mem_cons.mp h
    obtain ⟨ihlt, ihcount⟩ := ih hranges
    rw [mergeRange]
    by_cases hend : r.stop = startAddr
    · rw [if_pos hend]
      refine ⟨List.forall_mem_cons.mpr ⟨by dsimp only; omega, hranges⟩, ?_⟩
      rw [containing_cons, containing_cons]
      dsimp only
      split_ifs <;> omega
    · rw [if_neg hend]
      refine ⟨List.forall_mem_cons.mpr ⟨hr, ihlt⟩, ?_⟩
      rw [containing_cons, containing_cons, ihcount]
      omega

/-- The ranges of all blocks after some rows: each row adds its segment to its block. -/
private theorem containing_foldl_addRange (segs : List (Segment ℕ)) {m : FunctionBBMap}
    (h : ∀ bb, Proper (m bb)) (a bb : ℕ) :
    containing a (segs.foldl addRange m bb) = containing a (m bb) +
      ((segs.filter fun s => s.Contains a).map Segment.value).count bb := by
  induction segs generalizing m with
  | nil => simp
  | cons seg segs ih =>
    have hadd : (∀ bb, Proper (addRange m seg bb)) ∧
        containing a (addRange m seg bb) =
          containing a (m bb) + if seg.Contains a ∧ seg.value = bb then 1 else 0 := by
      rw [addRange]
      by_cases hempty : seg.start ≥ seg.stop
      · rw [if_pos hempty, if_neg (by rw [Segment.Contains]; omega)]
        exact ⟨h, rfl⟩
      · rw [if_neg hempty]
        have hmerge := containing_mergeRange (not_le.mp hempty) (h seg.value) a
        refine ⟨fun bb' => ?_, ?_⟩
        · by_cases hbb : bb' = seg.value
          · rw [hbb, Function.update_self]
            exact hmerge.1
          · rw [Function.update_of_ne hbb]
            exact h bb'
        · by_cases hbb : bb = seg.value
          · rw [hbb, Function.update_self, hmerge.2]
            simp [Segment.Contains]
          · rw [Function.update_of_ne hbb, if_neg fun hin => hbb hin.2.symm]
            rfl
    rw [List.foldl_cons, ih hadd.1, hadd.2]
    by_cases hin : seg.Contains a
    · rw [List.filter_cons_of_pos (by simpa using hin), List.map_cons, List.count_cons]
      by_cases hbb : seg.value = bb
      · simp [hin, hbb]
        omega
      · simp [hbb]
    · rw [List.filter_cons_of_neg (by simpa using hin), if_neg fun h => hin h.1]
      rfl

/-- **Charges of a function.** With sorted rows up to its end, an address inside a function is
charged once to the block of the row in force, and no other address is charged. -/
private theorem containing_buildRanges {stop : ℕ} {entries : List LineEntry}
    (hsorted : entries.Pairwise fun e e' => e.address ≤ e'.address)
    (hstop : ∀ e ∈ entries, e.address < stop) (a bb : ℕ) :
    containing a (buildRanges stop entries bb) =
      if a < stop then
        ((inForce a (entries.map fun e => (e.address, e.line))).toList.map Prod.snd).count bb
      else 0 := by
  have hpoints : SortedPoints (entries.map fun e => (e.address, e.line)) := by
    rw [SortedPoints, List.pairwise_map]
    exact hsorted
  rw [buildRanges, containing_foldl_addRange _ (by simp [Proper])]
  have hnone : containing a [] = 0 := rfl
  rw [hnone, Nat.zero_add]
  split_ifs with ha
  · rw [← segments_containing hpoints ha, List.map_map]
    rfl
  · have hempty : (segments stop (entries.map fun e => (e.address, e.line))).filter
        (fun s => s.Contains a) = [] := by
      rw [List.filter_eq_nil_iff]
      intro s hs hin
      have hle := (segment_le (fun p hp => ?_) hs).2
      · have := Segment.contains_iff.mp hin
        omega
      · obtain ⟨e, he, rfl⟩ := List.mem_map.mp hp
        exact (hstop e he).le
    rw [hempty]
    rfl

/-! ### Unmapped rows -/

/-- A block that an unmapped row may take. -/
private def Borrowed (all : List LineEntry) (line : ℕ) : Prop := line ≤ 1 ∨ ∃ e ∈ all, line = e.line

/-- What the resolver makes of a row. -/
private def ResolvedTo (all : List LineEntry) (e e' : LineEntry) : Prop :=
  e'.address = e.address ∧ (e.line ≠ 0 → e'.line = e.line) ∧ (e.line = 0 → Borrowed all e'.line)

private theorem borrowed_firstLabeled {all entries : List LineEntry}
    (hsub : ∀ e ∈ entries, e ∈ all) :
    Borrowed all (firstLabeled entries) := by
  rw [firstLabeled]
  cases hfind : entries.find? (fun e => e.line ≠ 0) with
  | none => exact .inl (by simp)
  | some e => exact .inr ⟨e, hsub e (List.mem_of_find?_eq_some hfind), rfl⟩

private theorem resolveFrom_spec {all : List LineEntry} {entryBB exitBB : ℕ}
    (hentry : Borrowed all entryBB) (hexit : Borrowed all exitBB) {entries : List LineEntry}
    (hsub : ∀ e ∈ entries, e ∈ all) {prev : ℕ} (hprev : Borrowed all prev) :
    List.Forall₂ (ResolvedTo all) entries (resolveFrom entryBB exitBB prev entries) := by
  induction entries generalizing prev with
  | nil => exact .nil
  | cons e entries ih =>
    set line := resolve e.line ⟨prev, firstLabeled entries, entryBB, exitBB⟩ with hline
    have hmapped : e.line ≠ 0 → line = e.line := fun hne => by rw [hline, resolve, if_pos hne]
    have hborrowed : Borrowed all line := by
      rw [hline, resolve]
      split_ifs
      · exact .inr ⟨e, hsub e (by simp), rfl⟩
      · exact hentry
      · exact hexit
      · exact hprev
      · exact .inl (by simp)
    refine .cons ⟨rfl, hmapped, fun _ => hborrowed⟩ (ih (fun e' he' => hsub e' (by simp [he'])) ?_)
    split_ifs
    · exact hborrowed
    · exact hprev

/-- **The resolver** keeps addresses and mapped rows. -/
private theorem resolveUnmappedLines_spec (entries : List LineEntry) :
    List.Forall₂ (ResolvedTo entries) entries (resolveUnmappedLines entries) := by
  refine resolveFrom_spec ?_ ?_ (fun e he => he) (.inl (by simp))
  · split_ifs
    · exact .inl le_rfl
    · exact borrowed_firstLabeled fun e he => he
  · split_ifs
    · exact .inl le_rfl
    · exact borrowed_firstLabeled fun e he => List.mem_reverse.mp he

/-! ### Functions -/

private theorem sorted_funcStarts (labels : List Label) : SortedPoints (funcStarts labels) := by
  have hsorted : (funcStarts labels).Pairwise fun a b => decide (toLex a ≤ toLex b) = true :=
    List.pairwise_mergeSort
      (fun a b c hab hbc => by simpa using le_trans (by simpa using hab) (by simpa using hbc))
      (fun a b => by simpa using le_total (toLex a) (toLex b)) _
  refine hsorted.imp fun {a b} hab => ?_
  rcases Prod.Lex.le_iff.mp (by simpa using hab : toLex a ≤ toLex b) with hlt | ⟨heq, -⟩
  · exact hlt.le
  · exact heq.le

private theorem mem_funcStarts {labels : List Label} {label : Label} :
    label ∈ funcStarts labels ↔ label ∈ labels ∧ isLocalLabel label = false := by
  rw [funcStarts, List.mem_mergeSort, List.mem_filter]
  simp

theorem le_foldl_max {l : List ℕ} {b x : ℕ} (h : x ∈ l ∨ x ≤ b) : x ≤ l.foldl max b := by
  induction l generalizing b with
  | nil => simpa using h
  | cons y l ih =>
    refine ih ?_
    rcases h with h | h
    · rcases List.mem_cons.mp h with rfl | h
      · exact .inr (le_max_right b x)
      · exact .inl h
    · exact .inr (h.trans (le_max_left b y))

theorem lt_maxAddr {instructions : List Instruction} {i : Instruction}
    (hi : i ∈ instructions) : i.address < maxAddr instructions := by
  have hle : instrEnd i ≤ maxAddr instructions := le_foldl_max (.inl (List.mem_map_of_mem hi))
  have hlt : i.address < instrEnd i := by
    rw [instrEnd]
    omega
  omega

/-- A function range that contains an address belongs to the label in force there. -/
private theorem inForce_of_contains {obj : ObjectFile} {a : ℕ} (ha : a < maxAddr obj.instructions)
    {fr : Segment String} (hfr : fr ∈ parseFunctionRanges obj) (hin : fr.Contains a) :
    inForce a (funcStarts obj.labels) = some (fr.start, fr.value) := by
  have hmem : (fr.start, fr.value) ∈ (inForce a (funcStarts obj.labels)).toList := by
    rw [← segments_containing (sorted_funcStarts obj.labels) ha]
    have hseg := List.mem_of_mem_filter hfr
    exact List.mem_map.mpr ⟨fr, List.mem_filter.mpr ⟨hseg, by simpa using hin⟩, rfl⟩
  exact Option.mem_toList.mp hmem

/-- At most one function range contains an address. -/
private theorem range_unique {obj : ObjectFile} {a : ℕ} (ha : a < maxAddr obj.instructions)
    {fr fr' : Segment String} (hfr : fr ∈ parseFunctionRanges obj) (hin : fr.Contains a)
    (hfr' : fr' ∈ parseFunctionRanges obj) (hin' : fr'.Contains a) : fr = fr' := by
  have hlen : ((segments (maxAddr obj.instructions) (funcStarts obj.labels)).filter
      fun s => s.Contains a).length ≤ 1 := by
    have hcontaining := congrArg List.length (segments_containing (sorted_funcStarts obj.labels) ha)
    rw [List.length_map] at hcontaining
    rw [hcontaining]
    cases inForce a (funcStarts obj.labels) <;> simp
  have hmem : ∀ {s : Segment String}, s ∈ parseFunctionRanges obj → s.Contains a →
      s ∈ (segments (maxAddr obj.instructions) (funcStarts obj.labels)).filter
        fun s => s.Contains a :=
    fun hs hc => List.mem_filter.mpr ⟨List.mem_of_mem_filter hs, by simpa using hc⟩
  obtain ⟨s, hs⟩ := List.length_eq_one_iff.mp
    (le_antisymm hlen (List.length_pos_of_mem (hmem hfr hin)))
  have h := hmem hfr hin
  have h' := hmem hfr' hin'
  rw [hs, List.mem_singleton] at h h'
  rw [h, h']

private theorem exists_of_forall₂ {α β : Type*} {R : α → β → Prop} {l : List α} {l' : List β}
    (h : List.Forall₂ R l l') {b : β} (hb : b ∈ l') : ∃ a ∈ l, R a b := by
  induction h with
  | nil => simp at hb
  | @cons a b' l l' hab _ ih =>
    rcases List.mem_cons.mp hb with rfl | hb
    · exact ⟨a, by simp, hab⟩
    · obtain ⟨a', ha', hR⟩ := ih hb
      exact ⟨a', by simp [ha'], hR⟩

/-- A line of a mapped row. -/
private def Mapped (rows : List LineEntry) (line : ℕ) : Prop :=
  line ≠ 0 ∧ ∃ e ∈ rows, e.line = line

private theorem mapped_firstLabeled {rows entries : List LineEntry}
    (hsub : ∀ e ∈ entries, e ∈ rows) (h : ∃ e ∈ entries, e.line ≠ 0) :
    Mapped rows (firstLabeled entries) := by
  obtain ⟨e, he, hne⟩ := h
  rw [firstLabeled]
  cases hfind : entries.find? (fun e => e.line ≠ 0) with
  | none => exact absurd hne (by simpa using List.find?_eq_none.mp hfind e he)
  | some e' =>
    exact ⟨by simpa using List.find?_some hfind,
      e', hsub e' (List.mem_of_find?_eq_some hfind), rfl⟩

/-- Where there is a mapped row, every row gets the line of one. -/
private theorem mapped_resolveFrom {rows entries : List LineEntry} {entryBB exitBB prev : ℕ}
    (hsub : ∀ e ∈ entries, e ∈ rows) (hentry : Mapped rows entryBB) (hexit : Mapped rows exitBB)
    (hprev : Mapped rows prev ∨ prev = 0 ∧ ∃ e ∈ entries, e.line ≠ 0) :
    ∀ e' ∈ resolveFrom entryBB exitBB prev entries, Mapped rows e'.line := by
  induction entries generalizing prev with
  | nil => simp [resolveFrom]
  | cons e entries ih =>
    have hline : Mapped rows (resolve e.line ⟨prev, firstLabeled entries, entryBB, exitBB⟩) := by
      rw [resolve]
      split_ifs with hraw hfirst hlast hinner
      · exact ⟨hraw, e, hsub e (List.mem_cons_self ..), rfl⟩
      · exact hentry
      · exact hexit
      · exact hprev.resolve_right fun h => hinner.1 h.1
      · -- no mapped row before this one, so there is one behind it
        have hzero : prev = 0 := by
          by_contra hne
          exact hlast ⟨hne, by_contra fun hnext => hinner ⟨hne, hnext⟩⟩
        obtain ⟨-, e', he', hne⟩ := hprev.resolve_left fun h => h.1 hzero
        rcases List.mem_cons.mp he' with rfl | he'
        · exact absurd hne hraw
        · have hnext : Mapped entries (firstLabeled entries) :=
            mapped_firstLabeled (fun _ h => h) ⟨e', he', hne⟩
          exact absurd ⟨hzero, hnext.1⟩ hfirst
    rw [resolveFrom]
    refine List.forall_mem_cons.mpr ⟨hline, ih (fun e' he' => hsub e' (List.mem_cons_of_mem _ he'))
      (.inl ?_)⟩
    rwa [if_pos hline.1]

private theorem mapped_resolveUnmappedLines {rows : List LineEntry} (h : ∃ e ∈ rows, e.line ≠ 0) :
    ∀ e' ∈ resolveUnmappedLines rows, Mapped rows e'.line := by
  have hentry := mapped_firstLabeled (fun _ he => he) h
  have hexit : Mapped rows (firstLabeled rows.reverse) :=
    mapped_firstLabeled (fun e he => List.mem_reverse.mp he) (by simpa using h)
  refine mapped_resolveFrom (fun _ he => he) ?_ ?_ (.inr ⟨rfl, h⟩)
  · rwa [if_neg hentry.1]
  · rwa [if_neg hexit.1]

/-- A block with a range comes from a row. -/
private theorem mem_of_foldl_addRange {segs : List (Segment ℕ)} {m : FunctionBBMap} {bb : ℕ}
    (h : segs.foldl addRange m bb ≠ []) : m bb ≠ [] ∨ bb ∈ segs.map Segment.value := by
  induction segs generalizing m with
  | nil => exact .inl h
  | cons seg segs ih =>
    rcases ih h with h | h
    · rw [addRange] at h
      split_ifs at h
      · exact .inl h
      · by_cases hbb : bb = seg.value
        · exact .inr (by simp [hbb])
        · exact .inl (by rwa [Function.update_of_ne hbb] at h)
    · exact .inr (List.mem_cons_of_mem _ h)

section Sorted

variable {sort : List LineEntry → List LineEntry} (hsort : SortsByAddress sort) (obj : ObjectFile)
  (fr : Segment String)
include hsort

/-- The rows of a function, and what the resolver makes of them. -/
private theorem resolvedLines_spec :
    (resolvedLines sort obj fr).Pairwise (fun e e' => e.address ≤ e'.address) ∧
    (∀ e' ∈ resolvedLines sort obj fr, ∃ e ∈ obj.lines, fr.start ≤ e.address ∧ e.address < fr.stop ∧
      ResolvedTo obj.lines e e') ∧
    ∀ e ∈ obj.lines, fr.start ≤ e.address → e.address < fr.stop →
      ∃ e' ∈ resolvedLines sort obj fr, e'.address = e.address := by
  set rows := sort (funcLines fr (sort obj.lines))
  have hrows : ∀ e, e ∈ rows ↔ e ∈ obj.lines ∧ fr.start ≤ e.address ∧ e.address < fr.stop := by
    intro e
    rw [(hsort _).1.mem_iff, funcLines, List.mem_filter, (hsort _).1.mem_iff]
    simp
  have hresolved := resolveUnmappedLines_spec rows
  have haddresses : rows.map LineEntry.address = (resolveUnmappedLines rows).map
    LineEntry.address := by
    rw [← List.forall₂_eq_eq_eq, List.forall₂_map_left_iff, List.forall₂_map_right_iff]
    exact hresolved.imp fun e e' h => h.1.symm
  refine ⟨?_, fun e' he' => ?_, fun e he hstart hstop => ?_⟩
  · have hsorted := List.pairwise_map.mpr (hsort (funcLines fr (sort obj.lines))).2
    rw [haddresses, List.pairwise_map] at hsorted
    exact hsorted
  · obtain ⟨e, he, haddr, hmapped, hborrowed⟩ := exists_of_forall₂ hresolved he'
    obtain ⟨hlines, hrange⟩ := (hrows e).mp he
    refine ⟨e, hlines, hrange.1, hrange.2, haddr, hmapped, fun hzero => ?_⟩
    exact (hborrowed hzero).imp_right fun ⟨e'', he'', heq⟩ => ⟨e'', ((hrows e'').mp he'').1, heq⟩
  · have hin : e.address ∈ rows.map LineEntry.address :=
      List.mem_map_of_mem ((hrows e).mpr ⟨he, hstart, hstop⟩)
    rw [haddresses] at hin
    obtain ⟨e', he', heq⟩ := List.mem_map.mp hin
    exact ⟨e', he', heq⟩

/-- The rows of a function as points. -/
private def points (sort : List LineEntry → List LineEntry) (obj : ObjectFile)
    (fr : Segment String) :
    List (ℕ × ℕ) :=
  (resolvedLines sort obj fr).map fun e => (e.address, e.line)

private theorem sorted_points : SortedPoints (points sort obj fr) :=
  List.pairwise_map.mpr (resolvedLines_spec hsort obj fr).1

/-- The charges of a function. -/
private theorem containing_resolved (a bb : ℕ) :
    containing a (buildRanges fr.stop (resolvedLines sort obj fr) bb) =
      if a < fr.stop then ((inForce a (points sort obj fr)).toList.map Prod.snd).count bb
      else 0 := by
  obtain ⟨hsorted, hrows, -⟩ := resolvedLines_spec hsort obj fr
  refine containing_buildRanges hsorted (fun e' he' => ?_) a bb
  obtain ⟨e, -, -, hstop, haddr, -⟩ := hrows e' he'
  rwa [haddr]

omit hsort in
/-- The step of `parse`. -/
private theorem foldl_parse_eq_some {ranges : List (Segment String)}
    {init : String → Option FunctionBBMap}
    {func : String} {m : FunctionBBMap}
    (h : ranges.foldl (fun result fr =>
      if funcLines fr (sort obj.lines) = [] then result
      else Function.update result fr.value
        (some (buildRanges fr.stop (resolvedLines sort obj fr)))) init func = some m) :
    init func = some m ∨ ∃ fr ∈ ranges, fr.value = func ∧
      m = buildRanges fr.stop (resolvedLines sort obj fr) := by
  induction ranges generalizing init with
  | nil => exact .inl h
  | cons fr ranges ih =>
    rcases ih h with hinit | ⟨fr', hfr', hm⟩
    · dsimp only at hinit
      split_ifs at hinit with hempty
      · exact .inl hinit
      · by_cases hfunc : func = fr.value
        · rw [hfunc, Function.update_self] at hinit
          exact .inr ⟨fr, by simp, hfunc.symm, (Option.some.inj hinit).symm⟩
        · rw [Function.update_of_ne hfunc] at hinit
          exact .inl hinit
    · exact .inr ⟨fr', by simp [hfr'], hm⟩

omit hsort in
/-- The blocks of a function come from a range with its name. -/
private theorem parse_eq_some {func : String} {m : FunctionBBMap}
    (h : parse sort obj func = some m) :
    ∃ fr ∈ parseFunctionRanges obj, fr.value = func ∧
      m = buildRanges fr.stop (resolvedLines sort obj fr) := by
  rcases foldl_parse_eq_some obj h with h | h
  · exact absurd h (by simp)
  · exact h

omit hsort in
private theorem chargeCount_eq {func : String} {m : FunctionBBMap}
    (h : parse sort obj func = some m)
    (bb a : ℕ) : chargeCount (parse sort obj) func bb a = containing a (m bb) := by
  rw [chargeCount, h]
  rfl

/-- **A charged address** is in the range of the function, and the row in force names the block. -/
private theorem charged_spec {func : String} {bb a : ℕ}
    (h : 0 < chargeCount (parse sort obj) func bb a) :
    ∃ fr ∈ parseFunctionRanges obj, fr.value = func ∧ fr.Contains a ∧
      ∃ addr, inForce a (points sort obj fr) = some (addr, bb) := by
  cases hparse : parse sort obj func with
  | none =>
    rw [chargeCount, hparse] at h
    exact absurd h (lt_irrefl 0)
  | some m =>
    obtain ⟨fr, hfr, hvalue, rfl⟩ := parse_eq_some obj hparse
    rw [chargeCount_eq obj hparse, containing_resolved hsort obj fr] at h
    split_ifs at h with hstop
    · cases hforce : inForce a (points sort obj fr) with
      | none => simp [hforce] at h
      | some p =>
        have hbb : p.2 = bb := by
          by_contra hne
          simp [hforce, hne] at h
        -- the row in force is a row of the function, so the address is behind its start
        obtain ⟨hp, hle, -⟩ := inForce_spec (sorted_points hsort obj fr) hforce
        obtain ⟨e', he', rfl⟩ := List.mem_map.mp hp
        obtain ⟨e, -, hstart, -, haddr, -⟩ := (resolvedLines_spec hsort obj fr).2.1 e' he'
        dsimp only at hle
        refine ⟨fr, hfr, hvalue, ⟨by omega, hstop⟩, e'.address, ?_⟩
        exact hforce.trans (congrArg some (Prod.ext rfl hbb))
    · exact absurd h (lt_irrefl 0)

/-- An address is charged at most once to a block. -/
private theorem chargeCount_le_one (func : String) (bb a : ℕ) :
    chargeCount (parse sort obj) func bb a ≤ 1 := by
  cases hparse : parse sort obj func with
  | none =>
    rw [chargeCount, hparse]
    exact zero_le_one
  | some m =>
    obtain ⟨fr, -, -, rfl⟩ := parse_eq_some obj hparse
    rw [chargeCount_eq obj hparse, containing_resolved hsort obj fr]
    split_ifs
    · refine List.count_le_length.trans ?_
      cases inForce a (points sort obj fr) <;> simp
    · exact zero_le_one

/-- An address is charged to one block at most. -/
private theorem charged_unique {func func' : String} {bb bb' a : ℕ}
    (ha : a < maxAddr obj.instructions) (h : 0 < chargeCount (parse sort obj) func bb a)
    (h' : 0 < chargeCount (parse sort obj) func' bb' a) : func = func' ∧ bb = bb' := by
  obtain ⟨fr, hfr, hvalue, hin, addr, hforce⟩ := charged_spec hsort obj h
  obtain ⟨fr', hfr', hvalue', hin', addr', hforce'⟩ := charged_spec hsort obj h'
  obtain rfl := range_unique ha hfr hin hfr' hin'
  have heq : (addr, bb) = (addr', bb') := Option.some.inj (hforce.symm.trans hforce')
  exact ⟨hvalue.symm.trans hvalue', (Prod.mk.inj heq).2⟩

/-- **The blocks of a function** that have a range are lines of its mapped rows, if there is any. -/
theorem line_of_ranges {func : String} {m : FunctionBBMap} (h : parse sort obj func = some m)
    {bb : ℕ} (hbb : m bb ≠ []) : ∃ fr ∈ parseFunctionRanges obj, fr.value = func ∧
      (∃ e ∈ obj.lines, fr.start ≤ e.address ∧ e.address < fr.stop) ∧
      ((∃ e ∈ obj.lines, fr.start ≤ e.address ∧ e.address < fr.stop ∧ e.line ≠ 0) →
        bb ≠ 0 ∧ ∃ e ∈ obj.lines, fr.start ≤ e.address ∧ e.address < fr.stop ∧ e.line = bb) := by
  obtain ⟨fr, hfr, hvalue, rfl⟩ := parse_eq_some obj h
  have hmem := (mem_of_foldl_addRange hbb).resolve_left (· rfl)
  rw [map_value_segments, List.map_map] at hmem
  obtain ⟨e', he', rfl⟩ := List.mem_map.mp hmem
  obtain ⟨row, hrow, hrowstart, hrowstop, -⟩ := (resolvedLines_spec hsort obj fr).2.1 e' he'
  refine ⟨fr, hfr, hvalue, ⟨row, hrow, hrowstart, hrowstop⟩, fun ⟨e, he, hstart, hstop, hne⟩ => ?_⟩
  have hrows : ∀ e, e ∈ sort (funcLines fr (sort obj.lines)) ↔
      e ∈ obj.lines ∧ fr.start ≤ e.address ∧ e.address < fr.stop := by
    intro e
    rw [(hsort _).1.mem_iff, funcLines, List.mem_filter, (hsort _).1.mem_iff]
    simp
  obtain ⟨hne', e'', he'', hline⟩ :=
    mapped_resolveUnmappedLines ⟨e, (hrows e).mpr ⟨he, hstart, hstop⟩, hne⟩ e' he'
  obtain ⟨hlines, hrange⟩ := (hrows e'').mp he''
  exact ⟨hne', e'', hlines, hrange.1, hrange.2, hline⟩

/-- An instruction is charged once, to one block. -/
theorem charged_once : (∀ func bb a, chargeCount (parse sort obj) func bb a ≤ 1) ∧
    ∀ i ∈ obj.instructions, ∀ func bb func' bb',
      0 < chargeCount (parse sort obj) func bb i.address →
      0 < chargeCount (parse sort obj) func' bb' i.address → func = func' ∧ bb = bb' :=
  ⟨chargeCount_le_one hsort obj, fun _ hi _ _ _ _ => charged_unique hsort obj (lt_maxAddr hi)⟩

/-- **The block of an instruction in the only section** is the one that the line table names. -/
theorem lineNames_of_charged (s : TextSection) {func : String} {bb a : ℕ}
    (ha : a < maxAddr s.instructions) (h : 0 < chargeCount (parse sort [s]) func bb a) :
    s.LineNames a func bb := by
  have hlabels : ObjectFile.labels [s] = s.labels := by simp [ObjectFile.labels]
  have hlines : ObjectFile.lines [s] = s.lines := by simp [ObjectFile.lines]
  have hinstructions : ObjectFile.instructions [s] = s.instructions := by
    simp [ObjectFile.instructions]
  obtain ⟨fr, hfr, hvalue, hin, addr, hforce⟩ := charged_spec hsort [s] h
  have hlabel := inForce_of_contains (by rwa [hinstructions]) hfr hin
  obtain ⟨hmem, hle, hlast⟩ := inForce_spec (sorted_funcStarts _) hlabel
  rw [mem_funcStarts, hlabels] at hmem
  obtain ⟨hrow, hrowle, hrowlast⟩ := inForce_spec (sorted_points hsort [s] fr) hforce
  obtain ⟨e', he', heq⟩ := List.mem_map.mp hrow
  obtain ⟨rfl, rfl⟩ := Prod.mk.inj heq
  obtain ⟨-, hrows, hback⟩ := resolvedLines_spec hsort [s] fr
  obtain ⟨e, he, hstart, hstop, haddr, hmapped, hborrowed⟩ := hrows e' he'
  rw [hlines] at he
  rw [hlines] at hborrowed
  refine ⟨(fr.start, fr.value), ⟨?_, hle, fun g hg hga => hlast g ?_ hga⟩, hvalue, e, he, hstart,
    haddr ▸ hrowle, fun e'' he'' hle'' => ?_, fun hne => hmapped hne, fun hzero => hborrowed hzero⟩
  · exact List.mem_filter.mpr ⟨hmem.1, by simp [hmem.2]⟩
  · obtain ⟨hg, hlocal⟩ := List.mem_filter.mp hg
    rw [mem_funcStarts, hlabels]
    exact ⟨hg, by simpa using hlocal⟩
  · -- a later row would be a row of the function as well, and in force in place of `e`
    by_contra hlt
    have hrange : fr.start ≤ e''.address ∧ e''.address < fr.stop := by
      have := hin.2
      omega
    obtain ⟨r, hr, hraddr⟩ := hback e'' (by rwa [hlines]) hrange.1 hrange.2
    have := hrowlast (r.address, r.line) (List.mem_map_of_mem hr) (by dsimp only; omega)
    dsimp only at this
    omega

omit hsort in
/-- Ranges with other names do not change the blocks of a function. -/
private theorem foldl_parse_of_ne {ranges : List (Segment String)}
    {init : String → Option FunctionBBMap} {func : String}
    (h : func ∉ ranges.map Segment.value) :
    ranges.foldl (fun result fr =>
      if funcLines fr (sort obj.lines) = [] then result
      else Function.update result fr.value
        (some (buildRanges fr.stop (resolvedLines sort obj fr)))) init func = init func := by
  induction ranges generalizing init with
  | nil => rfl
  | cons fr ranges ih =>
    rw [List.map_cons, List.mem_cons, not_or] at h
    rw [List.foldl_cons, ih h.2]
    split_ifs
    · rfl
    · exact Function.update_of_ne h.1 _ _

omit hsort in
/-- A function with rows has blocks, if no other function has its name. -/
private theorem parse_of_mem {fr : Segment String} (hfr : fr ∈ parseFunctionRanges obj)
    (hnodup : ((parseFunctionRanges obj).map Segment.value).Nodup)
    (hrows : funcLines fr (sort obj.lines) ≠ []) :
    parse sort obj fr.value = some (buildRanges fr.stop (resolvedLines sort obj fr)) := by
  obtain ⟨before, after, hsplit⟩ := List.append_of_mem hfr
  have hlater : fr.value ∉ after.map Segment.value := by
    rw [hsplit, List.map_append, List.map_cons] at hnodup
    exact (List.nodup_cons.mp (List.nodup_append.mp hnodup).2.1).1
  rw [parse, hsplit, List.foldl_append, List.foldl_cons, foldl_parse_of_ne obj hlater, if_neg hrows,
    Function.update_self]

omit hsort in
private theorem functionLabels_flatMap :
    obj.flatMap TextSection.functionLabels =
      obj.labels.filter fun label => !isLocalLabel label := by
  rw [ObjectFile.labels, List.filter_flatMap]
  rfl

omit hsort in
private theorem nodup_parseFunctionRanges (hobj : obj.WellFormed) :
    ((parseFunctionRanges obj).map Segment.value).Nodup := by
  have hstarts : ((funcStarts obj.labels).map Prod.snd).Nodup := by
    have hperm := (List.mergeSort_perm (obj.labels.filter fun label => !isLocalLabel label)
      fun a b => toLex a ≤ toLex b).map Prod.snd
    exact hperm.nodup_iff.mpr (functionLabels_flatMap obj ▸ hobj.names_nodup)
  rw [← map_value_segments (maxAddr obj.instructions)] at hstarts
  exact hstarts.sublist (List.filter_sublist.map Segment.value)

/-- **Address zero is charged** in every object file of the compiler, to some function there. -/
private theorem charged_zero (hobj : obj.WellFormed) (hne : obj ≠ []) :
    ∃ f ∈ obj.flatMap TextSection.functionLabels,
      ∃ bb, 0 < chargeCount (parse sort obj) f.2 bb 0 := by
  obtain ⟨s, hs⟩ := List.exists_mem_of_ne_nil obj hne
  have hmem : ∀ f : Label, f ∈ funcStarts obj.labels ↔ f ∈ obj.flatMap
    TextSection.functionLabels := by
    intro f
    rw [functionLabels_flatMap, mem_funcStarts, List.mem_filter]
    simp
  obtain ⟨f, hf, hzero⟩ := hobj.function_zero s hs
  obtain ⟨i, hi, hizero⟩ := hobj.instruction_zero s hs
  obtain ⟨e, he, hezero⟩ := hobj.line_zero s hs
  have hmax : 0 < maxAddr obj.instructions :=
    hizero ▸ lt_maxAddr (List.mem_flatMap.mpr ⟨s, hs, hi⟩)
  -- the function range at address zero
  obtain ⟨g, hg⟩ := exists_inForce ((hmem f).mpr (List.mem_flatMap.mpr ⟨s, hs, hf⟩)) hzero.le
  have hgmem := (inForce_spec (sorted_funcStarts obj.labels) hg).1
  have hseg := segments_containing (sorted_funcStarts obj.labels) hmax
  rw [hg] at hseg
  have hgseg := List.mem_singleton_self g
  rw [← Option.toList_some, ← hseg] at hgseg
  obtain ⟨fr, hfr, rfl⟩ := List.mem_map.mp hgseg
  rw [List.mem_filter, Segment.contains_iff] at hfr
  obtain ⟨hfr, hstart, hstop⟩ := hfr
  have hrange : fr ∈ parseFunctionRanges obj :=
    List.mem_filter.mpr ⟨hfr, by simpa using hstart.trans_lt hstop⟩
  -- its first row
  have hline : e ∈ obj.lines := List.mem_flatMap.mpr ⟨s, hs, he⟩
  have hrows : funcLines fr (sort obj.lines) ≠ [] :=
    List.ne_nil_of_mem (List.mem_filter.mpr
      ⟨(hsort _).1.mem_iff.mpr hline, by simp [hezero, Nat.le_zero.mp hstart, hstop]⟩)
  obtain ⟨e', he', haddr⟩ :=
    (resolvedLines_spec hsort obj fr).2.2 e hline (by omega) (by omega)
  have hpoint : (e'.address, e'.line) ∈ points sort obj fr := List.mem_map_of_mem he'
  obtain ⟨p, hp⟩ := exists_inForce hpoint (haddr.trans hezero).le
  refine ⟨_, (hmem _).mp hgmem, p.2, ?_⟩
  rw [chargeCount_eq obj (parse_of_mem obj hrange (nodup_parseFunctionRanges obj hobj) hrows),
    containing_resolved hsort obj fr, if_pos hstop, hp]
  simp

end Sorted

/-! ### Calls -/

private theorem floorEntry_eq {m : ℕ → Option String} {a offset : ℕ} {name : String}
    (ha : a ≤ offset)
    (hm : m a = some name) (hnone : ∀ b, a < b → b ≤ offset → m b = none) :
    floorEntry m offset = some name := by
  induction offset with
  | zero =>
    obtain rfl : a = 0 := Nat.le_zero.mp ha
    rw [floorEntry, hm]
  | succ n ih =>
    rw [floorEntry]
    rcases Nat.lt_or_eq_of_le ha with hlt | rfl
    · rw [hnone (n + 1) hlt le_rfl]
      exact ih (by omega) fun b hab hbn => hnone b hab (by omega)
    · rw [hm]
      rfl

/-- Labels at other addresses do not change an entry. -/
private theorem foldl_labels_of_ne {labels : List Label} {m : ℕ → Option String} {a : ℕ}
    (h : ∀ g ∈ labels, g.1 ≠ a) :
    labels.foldl (fun (m : ℕ → Option String) label => Function.update m label.1 (some label.2))
      m a =
      m a := by
  induction labels generalizing m with
  | nil => rfl
  | cons g labels ih =>
    obtain ⟨hg, hlabels⟩ := List.forall_mem_cons.mp h
    rw [List.foldl_cons, ih hlabels, Function.update_of_ne hg.symm]

/-- **Calls are resolved to the last label.** -/
private theorem floorEntry_lastLabel {labels : List Label} {offset : ℕ} {label : Label}
    (h : LastLabel labels offset label) :
    floorEntry (parseFunctionLabels labels) offset = some label.2 := by
  obtain ⟨before, after, rfl, hle, hbefore, hafter⟩ := h
  refine floorEntry_eq hle ?_ fun b hb hbo => ?_
  · rw [parseFunctionLabels, List.foldl_append, List.foldl_cons, 
      foldl_labels_of_ne fun g hg heq => ?_,
      Function.update_self]
    have := hafter g hg (heq.trans_le hle)
    omega
  · refine foldl_labels_of_ne fun g hg heq => ?_
    rcases List.mem_append.mp hg with hg | hg
    · have := hbefore g hg (by omega)
      omega
    · rcases List.mem_cons.mp hg with rfl | hg
      · omega
      · have := hafter g hg (by omega)
        omega

private theorem exists_lastLabel {labels : List Label} {offset : ℕ} {f : Label} (hf : f ∈ labels)
    (hle : f.1 ≤ offset) : ∃ label, LastLabel labels offset label := by
  induction labels generalizing f with
  | nil => simp at hf
  | cons g labels ih =>
    by_cases hrest : ∃ f' ∈ labels, f'.1 ≤ offset
    · obtain ⟨f', hf', hle'⟩ := hrest
      obtain ⟨label, before, after, rfl, hlabel, hbefore, hafter⟩ := ih hf' hle'
      by_cases hg : g.1 ≤ offset ∧ label.1 < g.1
      · -- the first label is nearer than all the others
        refine ⟨g, [], before ++ label :: after, rfl, hg.1, by simp, fun x hx hxo => ?_⟩
        rcases List.mem_append.mp hx with hx | hx
        · have := hbefore x hx hxo
          omega
        · rcases List.mem_cons.mp hx with rfl | hx
          · exact hg.2
          · have := hafter x hx hxo
            omega
      · refine ⟨label, g :: before, after, rfl, hlabel, fun x hx hxo => ?_, hafter⟩
        rcases List.mem_cons.mp hx with rfl | hx
        · omega
        · exact hbefore x hx hxo
    · push Not at hrest
      obtain rfl : f = g := by
        rcases List.mem_cons.mp hf with hf | hf
        · exact hf
        · exact absurd (hrest f hf) (by omega)
      exact ⟨f, [], labels, rfl, hle, by simp, fun x hx hxo => absurd (hrest x hx) (by omega)⟩

private theorem resolveCallTarget_of_lastLabel {obj : ObjectFile} {i : Instruction} {offset : ℕ}
    (hcall : i.CallsText offset) {label : Label} (h : LastLabel obj.labels offset label) :
    (resolveCallTarget (parseFunctionLabels obj.labels) i).callTarget = ⟨label.2, none⟩ := by
  obtain ⟨hmnemonic, hsymbol, hoffset⟩ := hcall
  have hstart : startsWith i.callTarget.symbol ".text" = true := by
    rw [hsymbol]
    decide
  rw [resolveCallTarget, if_pos ⟨hmnemonic, hstart⟩, hoffset, floorEntry_lastLabel h]

/-- **Calls in the only section** are resolved to functions unless a local label hides one. -/
private theorem calls_iff (s : TextSection) :
    (∀ i ∈ ObjectFile.instructions [s], ∀ offset, i.CallsText offset →
      ∀ t ∈ [s], t.name = ".text" → (∃ f, t.FunctionAt offset f) →
      ∃ f, t.FunctionAt offset f ∧
        (resolveCallTarget (parseFunctionLabels (ObjectFile.labels [s])) i).callTarget =
          ⟨f.2, none⟩) ↔
      ObjectFile.CallsUnhidden [s] := by
  have hlabels : ObjectFile.labels [s] = s.labels := by simp [ObjectFile.labels]
  refine forall₂_congr fun i hi => forall₂_congr fun offset hcall => forall₂_congr fun t ht =>
    forall₂_congr fun hname hexists => ?_
  obtain rfl := List.mem_singleton.mp ht
  constructor
  · rintro ⟨f, ⟨hf, -⟩, hresolved⟩ label hlast
    rw [resolveCallTarget_of_lastLabel hcall hlast] at hresolved
    have heq : label.2 = f.2 := congrArg CallTarget.symbol hresolved
    have hfunction := (List.mem_filter.mp hf).2
    rw [isLocalLabel, heq]
    simpa [isLocalLabel] using hfunction
  · intro h
    obtain ⟨f, hf, hle, -⟩ := hexists
    obtain ⟨label, hlast⟩ := exists_lastLabel (hlabels ▸ List.mem_of_mem_filter hf) hle
    refine ⟨label, ?_, resolveCallTarget_of_lastLabel hcall hlast⟩
    have hlocal := h label hlast
    obtain ⟨before, after, heq, hlabel, hbefore, hafter⟩ := hlast
    rw [hlabels] at heq
    refine ⟨List.mem_filter.mpr ⟨by simp [heq], by simp [hlocal]⟩, hlabel, fun g hg hgo => ?_⟩
    have hmem := List.mem_of_mem_filter hg
    rw [heq] at hmem
    rcases List.mem_append.mp hmem with hmem | hmem
    · exact hbefore g hmem hgo
    · rcases List.mem_cons.mp hmem with rfl | hmem
      · exact le_rfl
      · exact (hafter g hmem hgo).le

/-! ### One section -/

/-- **Attribution is exact in object files with one text section** in which no local label hides a
function that is called by its offset, and in no other object file of the compiler. -/
theorem attribution_exact_iff {sort : List LineEntry → List LineEntry} (hsort : SortsByAddress sort)
    (obj : ObjectFile) :
    (obj.length ≤ 1 ∧ obj.CallsUnhidden → AttributionExact sort obj) ∧
    (obj.WellFormed → AttributionExact sort obj → obj.length ≤ 1 ∧ obj.CallsUnhidden) := by
  constructor
  · rintro ⟨hlength, hcalls⟩
    cases obj with
    | nil =>
      exact ⟨by simp, by simp, by simp, by simp [ObjectFile.instructions]⟩
    | cons s rest =>
      obtain rfl : rest = [] := List.eq_nil_of_length_eq_zero (by simpa using hlength)
      have hmax : ∀ i ∈ s.instructions, i.address < maxAddr (ObjectFile.instructions [s]) :=
        fun i hi => lt_maxAddr (by simpa [ObjectFile.instructions] using hi)
      refine ⟨fun _ _ i _ func bb => chargeCount_le_one hsort _ func bb i.address, ?_, ?_,
        (calls_iff s).mpr hcalls⟩
      · intro s' hs' i hi func bb func' bb' h h'
        obtain rfl := List.mem_singleton.mp hs'
        exact charged_unique hsort _ (hmax i hi) h h'
      · intro s' hs' i hi func bb h
        obtain rfl := List.mem_singleton.mp hs'
        exact lineNames_of_charged hsort s' (lt_maxAddr hi) h
  · intro hobj hexact
    have hlength : obj.length ≤ 1 := by
      by_contra hlong
      obtain ⟨f, hf, bb, hcharged⟩ :=
        charged_zero hsort obj hobj (List.ne_nil_of_length_pos (by omega))
      -- every section has an instruction there, so every section has this function
      have hall : ∀ s ∈ obj, f.2 ∈ s.functionLabels.map Prod.snd := by
        intro s hs
        obtain ⟨i, hi, hzero⟩ := hobj.instruction_zero s hs
        obtain ⟨g, hg, hname, -⟩ := hexact.own_line s hs i hi f.2 bb (hzero ▸ hcharged)
        exact List.mem_map.mpr ⟨g, hg.1, hname⟩
      obtain ⟨s, t, rest, rfl⟩ : ∃ s t rest, obj = s :: t :: rest := by
        match obj, hlong with
        | s :: t :: rest, _ => exact ⟨s, t, rest, rfl⟩
        | [], h => exact absurd (Nat.zero_le 1) h
        | [_], h => exact absurd le_rfl h
      have hnodup := hobj.names_nodup
      rw [List.flatMap_cons, List.flatMap_cons, List.map_append, List.map_append] at hnodup
      exact (List.nodup_append.mp hnodup).2.2 f.2 (hall s (by simp)) f.2
        (List.mem_append_left _ (hall t (by simp))) rfl
    refine ⟨hlength, ?_⟩
    cases obj with
    | nil => exact fun i hi => absurd hi (by simp [ObjectFile.instructions])
    | cons s rest =>
      obtain rfl : rest = [] := List.eq_nil_of_length_eq_zero (by simpa using hlength)
      exact (calls_iff s).mp hexact.calls

/-- A function of two blocks in section `.text`, with a call of `.text+4` in the first one. -/
def oneSection : ObjectFile :=
  [⟨".text", [(0, "f"), (4, "g")],
    [⟨0, 4, "call", "", "", ⟨".text", some 4⟩⟩, ⟨4, 2, "ret", "", "", ⟨"", none⟩⟩],
    [⟨0, 1⟩, ⟨4, 2⟩]⟩]

/-- The stable sort by addresses. -/
def sortByAddress (l : List LineEntry) : List LineEntry :=
  l.insertionSort fun e e' => e.address ≤ e'.address

theorem sortByAddress_sorts : SortsByAddress sortByAddress := by
  have : Std.Total fun e e' : LineEntry => e.address ≤ e'.address := ⟨fun e e' => le_total _ _⟩
  have : IsTrans LineEntry fun e e' => e.address ≤ e'.address := ⟨fun _ _ _ => le_trans⟩
  exact fun l => ⟨List.perm_insertionSort _ l, List.pairwise_insertionSort _ l⟩

private theorem oneSection_unhidden : oneSection.CallsUnhidden := by
  rintro i - offset - t - - - label ⟨before, after, hlabels, -⟩
  have hmem : label ∈ oneSection.labels := by
    rw [hlabels]
    simp
  clear hlabels
  revert hmem label
  decide

/-- The call of `.text+4` is resolved to `g`, and the two instructions are charged to their
blocks. -/
theorem attribution_exact_oneSection :
    SortsByAddress sortByAddress ∧ oneSection.length ≤ 1 ∧ oneSection.CallsUnhidden ∧
      AttributionExact sortByAddress oneSection ∧
      (disassemble oneSection).map Instruction.callTarget = [⟨"g", none⟩, ⟨"", none⟩] :=
  ⟨sortByAddress_sorts, by decide, oneSection_unhidden,
    (attribution_exact_iff sortByAddress_sorts oneSection).1 ⟨by decide, oneSection_unhidden⟩,
    by decide⟩

/-- Two functions in sections of their own. -/
def twoSections : ObjectFile :=
  [⟨".text.f", [(0, "f")], [⟨0, 2, "ret", "", "", ⟨"", none⟩⟩], [⟨0, 1⟩]⟩,
    ⟨".text.g", [(0, "g")], [⟨0, 2, "ret", "", "", ⟨"", none⟩⟩], [⟨0, 1⟩]⟩]

private theorem parseFunctionRanges_twoSections :
    parseFunctionRanges twoSections = [⟨0, 4, "g"⟩] := by
  have hsorted : funcStarts twoSections.labels = twoSections.labels := by
    rw [funcStarts]
    exact List.mergeSort_of_pairwise (by decide)
  rw [parseFunctionRanges, hsorted]
  rfl

/-- **Functions in sections of their own**: the instruction of `f` is charged to a block of `g`. -/
theorem sections_share_addresses :
    twoSections.WellFormed ∧ ¬ AttributionExact sortByAddress twoSections := by
  refine ⟨⟨by decide, by decide, by decide, by decide⟩, fun h => ?_⟩
  have hcharged : 0 < chargeCount (parse sortByAddress twoSections) "g" 1 0 := by
    rw [parse, parseFunctionRanges_twoSections]
    decide
  obtain ⟨f, ⟨hf, -⟩, hname, -⟩ :=
    h.own_line _ (List.mem_cons_self) _ (List.mem_singleton_self _) "g" 1 hcharged
  revert f
  decide

end Bao.Energy
