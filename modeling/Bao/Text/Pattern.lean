import Mathlib

/-!
# Patterns of characters

Regular expressions over characters, and the backtracking search for a match of a whole text: a
repetition takes as many characters as it can, the first alternative comes first, and the first
match that is found decides what the groups capture.

* **What a search finds** (`Pattern.Takes`). A pattern takes a text in front of another one if the
  search goes on behind it. The rules compose: a repetition takes all characters up to the first one
  that does not belong to it (`takes_many`), a sequence takes the texts of its parts (`takes_seq`).
* **What a match looks like** (`fullMatch_sound`). A text that is matched splits as the pattern
  says.
-/

namespace Bao.Text

/-- The texts of the groups by their numbers; a group that takes no part in the match is empty. -/
abbrev Captures := ℕ → List Char

/-- Regular expressions. The repetitions of the source are over classes of characters. -/
inductive Pattern
  | empty
  | char (p : Char → Bool)
  | many (p : Char → Bool)
  | seq (P Q : Pattern)
  | alt (P Q : Pattern)
  | group (n : ℕ) (P : Pattern)

namespace Pattern

/-- One given character. -/
def lit (c : Char) : Pattern := .char (· == c)

/-- `p+`. -/
def many1 (p : Char → Bool) : Pattern := .seq (.char p) (.many p)

/-- `P?`. -/
def opt (P : Pattern) : Pattern := .alt P .empty

/-- One pattern after the other. -/
def all : List Pattern → Pattern
  | [] => .empty
  | P :: Ps => .seq P (all Ps)

/-! ### The search -/

/-- The search through the characters of a repetition, the longest first. -/
def runMany (p : Char → Bool) (k : List Char → Option Captures) : List Char → Option Captures
  | [] => k []
  | c :: s => if p c then (runMany p k s).orElse fun _ => k (c :: s) else k (c :: s)

/-- The backtracking search; `k` is what remains to be matched. -/
def run : Pattern → (List Char → Captures → Option Captures) → List Char → Captures →
    Option Captures
  | .empty, k, s, m => k s m
  | .char p, k, s, m =>
    match s with
    | [] => none
    | c :: s => if p c then k s m else none
  | .many p, k, s, m => runMany p (fun rest => k rest m) s
  | .seq P Q, k, s, m => P.run (Q.run k) s m
  | .alt P Q, k, s, m => (P.run k s m).orElse fun _ => Q.run k s m
  | .group n P, k, s, m =>
    P.run (fun rest m => k rest (Function.update m n (s.take (s.length - rest.length)))) s m

/-- **`regex_match`**: the pattern has to match the whole text. -/
def fullMatch (P : Pattern) (s : List Char) : Option Captures :=
  P.run (fun rest m => if rest = [] then some m else none) s fun _ => []

/-! ### What the search finds -/

/-- In front of `v`, the search takes `u` first, and the groups capture `m'`. -/
def Takes (P : Pattern) (u v : List Char) (m m' : Captures) : Prop :=
  ∀ k r, k v m' = some r → P.run k (u ++ v) m = some r

variable {P Q : Pattern} {p : Char → Bool} {u v w : List Char} {m m' m'' : Captures}

theorem takes_empty : Takes .empty [] v m m := fun _ _ h => h

theorem takes_char {c : Char} (hc : p c = true) : Takes (.char p) [c] v m m := fun k r h => by
  rw [List.singleton_append, run, if_pos hc, h]

theorem takes_lit {c : Char} : Takes (lit c) [c] v m m := takes_char (beq_self_eq_true c)

/-- A repetition stops at the first character that does not belong to it. -/
theorem takes_many (hu : ∀ c ∈ u, p c = true) (hv : ∀ c ∈ v.head?, p c = false) :
    Takes (.many p) u v m m := fun k r h => by
  rw [run]
  induction u with
  | nil =>
    cases v with
    | nil => exact h
    | cons c v => rwa [List.nil_append, runMany, hv c rfl, if_neg Bool.false_ne_true]
  | cons c u ih =>
    obtain ⟨hc, hu⟩ := List.forall_mem_cons.mp hu
    rw [List.cons_append, runMany, if_pos hc, ih hu, Option.orElse_some]

theorem takes_seq (hP : Takes P u (v ++ w) m m') (hQ : Takes Q v w m' m'') :
    Takes (.seq P Q) (u ++ v) w m m'' := fun k r h => by
  rw [run, List.append_assoc]
  exact hP _ r (hQ k r h)

theorem takes_many1 (hne : u ≠ []) (hu : ∀ c ∈ u, p c = true) (hv : ∀ c ∈ v.head?, p c = false) :
    Takes (many1 p) u v m m := by
  obtain ⟨c, u, rfl⟩ := List.exists_cons_of_ne_nil hne
  obtain ⟨hc, hu⟩ := List.forall_mem_cons.mp hu
  exact takes_seq (u := [c]) (takes_char hc) (takes_many hu hv)

theorem takes_alt_left (hP : Takes P u v m m') : Takes (.alt P Q) u v m m' := fun k r h => by
  rw [run, hP k r h, Option.orElse_some]

theorem takes_alt_right (hP : ∀ k, P.run k (u ++ v) m = none) (hQ : Takes Q u v m m') :
    Takes (.alt P Q) u v m m' := fun k r h => by
  rw [run, hP k, Option.orElse_none, hQ k r h]

/-- A group captures what its pattern takes. -/
theorem takes_group {n : ℕ} (hP : Takes P u v m m') :
    Takes (.group n P) u v m (Function.update m' n u) := fun k r h => by
  rw [run]
  refine hP _ r ?_
  have htaken : (u ++ v).take ((u ++ v).length - v.length) = u := by
    rw [List.length_append, Nat.add_sub_cancel, List.take_left']
    rfl
  rw [htaken, h]

theorem takes_all_nil : Takes (all []) [] v m m := takes_empty

/-- A pattern without groups comes first. -/
theorem takes_all_cons {Ps : List Pattern} (hP : Takes P u (v ++ w) m m)
    (hPs : Takes (all Ps) v w m m') : Takes (all (P :: Ps)) (u ++ v) w m m' :=
  takes_seq hP hPs

/-- A group comes first. -/
theorem takes_all_group {n : ℕ} {Ps : List Pattern} (hP : Takes P u (v ++ w) m m)
    (hPs : Takes (all Ps) v w (Function.update m n u) m') :
    Takes (all (.group n P :: Ps)) (u ++ v) w m m' :=
  takes_seq (takes_group hP) hPs

theorem fullMatch_of_takes (h : Takes P u [] (fun _ => []) m) : P.fullMatch u = some m := by
  have hrun := h (fun rest m => if rest = [] then some m else none) m (if_pos rfl)
  rwa [List.append_nil] at hrun

/-! ### What a match looks like -/

/-- The texts of a pattern. -/
def Matches : Pattern → List Char → Prop
  | .empty, s => s = []
  | .char p, s => ∃ c, p c = true ∧ s = [c]
  | .many p, s => ∀ c ∈ s, p c = true
  | .seq P Q, s => ∃ u v, P.Matches u ∧ Q.Matches v ∧ s = u ++ v
  | .alt P Q, s => P.Matches s ∨ Q.Matches s
  | .group _ P, s => P.Matches s

theorem matches_lit {c : Char} {s : List Char} : (lit c).Matches s ↔ s = [c] := by
  simp [lit, Matches]

theorem matches_many1 {s : List Char} :
    (many1 p).Matches s ↔ s ≠ [] ∧ ∀ c ∈ s, p c = true := by
  constructor
  · rintro ⟨-, v, ⟨c, hc, rfl⟩, hv, rfl⟩
    exact ⟨List.cons_ne_nil c v, List.forall_mem_cons.mpr ⟨hc, hv⟩⟩
  · rintro ⟨hne, hs⟩
    obtain ⟨c, s, rfl⟩ := List.exists_cons_of_ne_nil hne
    obtain ⟨hc, hs⟩ := List.forall_mem_cons.mp hs
    exact ⟨[c], s, ⟨c, hc, rfl⟩, hs, rfl⟩

private theorem runMany_sound {k : List Char → Option Captures} {s : List Char} {r : Captures}
    (h : runMany p k s = some r) :
    ∃ u v, (∀ c ∈ u, p c = true) ∧ k v = some r ∧ s = u ++ v := by
  induction s with
  | nil => exact ⟨[], [], List.forall_mem_nil _, h, rfl⟩
  | cons c s ih =>
    rw [runMany] at h
    split_ifs at h with hc
    · cases hmany : runMany p k s with
      | none =>
        rw [hmany, Option.orElse_none] at h
        exact ⟨[], c :: s, List.forall_mem_nil _, h, rfl⟩
      | some r' =>
        rw [hmany, Option.orElse_some] at h
        obtain ⟨u, v, hu, hv, rfl⟩ := ih (hmany.trans h)
        exact ⟨c :: u, v, List.forall_mem_cons.mpr ⟨hc, hu⟩, hv, rfl⟩
    · exact ⟨[], c :: s, List.forall_mem_nil _, h, rfl⟩

/-- The search takes a text of the pattern. -/
theorem run_sound {k : List Char → Captures → Option Captures} {s : List Char} {r : Captures}
    (h : P.run k s m = some r) : ∃ u v m', P.Matches u ∧ k v m' = some r ∧ s = u ++ v := by
  induction P generalizing k s m with
  | empty => exact ⟨[], s, m, rfl, h, rfl⟩
  | char p =>
    cases s with
    | nil => cases h
    | cons c s =>
      rw [run] at h
      split_ifs at h with hc
      exact ⟨[c], s, m, ⟨c, hc, rfl⟩, h, rfl⟩
  | many p =>
    obtain ⟨u, v, hu, hv, rfl⟩ := runMany_sound h
    exact ⟨u, v, m, hu, hv, rfl⟩
  | seq P Q ihP ihQ =>
    obtain ⟨u, s, m', hu, hQ, rfl⟩ := ihP h
    obtain ⟨v, w, m'', hv, hk, rfl⟩ := ihQ hQ
    exact ⟨u ++ v, w, m'', ⟨u, v, hu, hv, rfl⟩, hk, (List.append_assoc u v w).symm⟩
  | alt P Q ihP ihQ =>
    rw [run] at h
    cases hrun : P.run k s m with
    | none =>
      rw [hrun, Option.orElse_none] at h
      obtain ⟨u, v, m', hu, hk, hs⟩ := ihQ h
      exact ⟨u, v, m', .inr hu, hk, hs⟩
    | some r' =>
      rw [hrun, Option.orElse_some] at h
      obtain ⟨u, v, m', hu, hk, hs⟩ := ihP (hrun.trans h)
      exact ⟨u, v, m', .inl hu, hk, hs⟩
  | group n P ih =>
    obtain ⟨u, v, m', hu, hk, hs⟩ := ih h
    exact ⟨u, v, _, hu, hk, hs⟩

/-- **A text that is matched is one of the pattern.** -/
theorem fullMatch_sound {s : List Char} (h : P.fullMatch s = some m) : P.Matches s := by
  obtain ⟨u, v, m', hu, hk, rfl⟩ := run_sound h
  split_ifs at hk with hv
  rwa [hv, List.append_nil]

end Pattern

end Bao.Text
