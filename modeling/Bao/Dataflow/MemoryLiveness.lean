import Bao.Dataflow.RoundRobin

/-!
# Liveness of memory

Backward liveness over a control flow graph, from two bits for each block: whether the block
uses the incoming contents of a variable (`gen`) and whether it overwrites them (`kill`). There
are two cells for each block, live out and live in, and `solve` sweeps over them.

A variable is live into a block exactly when some path through blocks that do not kill it
reaches a block that generates it (`solve_inr_iff`). If the bits come from a scan of the
accesses of a block, that says: exactly when some path has a read that no full write on the
path precedes (`live_iff_path`).
-/

namespace Bao.Dataflow

universe u

variable {β : Type u}

/-! ### The equations -/

/-- The equations of liveness: `inl b` is live out of `b`, `inr b` is live into `b`. -/
def liveTransfer (succs : β → List β) (gen kill : β → Bool) (live : β ⊕ β → Bool) :
    β ⊕ β → Bool
  | .inl b => (succs b).any fun s => live (.inr s)
  | .inr b => gen b || (live (.inl b) && !kill b)

/-- The cells, in the order of the blocks. -/
def liveCells (blocks : List β) : List (β ⊕ β) := blocks.flatMap fun b => [.inl b, .inr b]

section Equations

variable {succs : β → List β} {gen kill : β → Bool} {blocks : List β}

@[simp] theorem mem_liveCells_inl {b : β} : .inl b ∈ liveCells blocks ↔ b ∈ blocks := by
  simp [liveCells]

@[simp] theorem mem_liveCells_inr {b : β} : .inr b ∈ liveCells blocks ↔ b ∈ blocks := by
  simp [liveCells]

theorem liveTransfer_monotone : Monotone (liveTransfer succs gen kill) := by
  intro s t hst k hk
  cases k with
  | inl b =>
    simp only [liveTransfer, List.any_eq_true] at hk ⊢
    obtain ⟨c, hc, hlive⟩ := hk
    exact ⟨c, hc, hst _ hlive⟩
  | inr b =>
    simp only [liveTransfer, Bool.or_eq_true, Bool.and_eq_true] at hk ⊢
    exact hk.imp id fun h => ⟨hst _ h.1, h.2⟩

variable [DecidableEq β]

/-- Live into a block that does not kill: live into a successor is enough. -/
private theorem solve_inr_of_succ {b c : β} (hb : b ∈ blocks) (hc : c ∈ succs b)
    (hkill : kill b = false)
    (hlive : solve (liveTransfer succs gen kill) (liveCells blocks) (.inr c) = true) :
    solve (liveTransfer succs gen kill) (liveCells blocks) (.inr b) = true := by
  have hout := solve_fixed liveTransfer_monotone _
    (mem_liveCells_inl.mpr hb : _ ∈ liveCells blocks) (f := liveTransfer succs gen kill)
  have hin := solve_fixed liveTransfer_monotone _
    (mem_liveCells_inr.mpr hb : _ ∈ liveCells blocks) (f := liveTransfer succs gen kill)
  rw [← hin, liveTransfer, Bool.or_eq_true, Bool.and_eq_true]
  refine .inr ⟨?_, by simp [hkill]⟩
  rw [← hout, liveTransfer, List.any_eq_true]
  exact ⟨c, hc, hlive⟩

/-- **Liveness is reachability.** Live into a block means that a block that generates is reached
through blocks that do not kill. -/
theorem solve_inr_iff (hsucc : ∀ b ∈ blocks, ∀ s ∈ succs b, s ∈ blocks) {b : β} :
    solve (liveTransfer succs gen kill) (liveCells blocks) (.inr b) = true ↔
      b ∈ blocks ∧ ∃ c, Relation.ReflTransGen (fun a c => c ∈ succs a ∧ kill a = false) b c ∧
        gen c = true := by
  constructor
  · intro hlive
    refine solve_induction (f := liveTransfer succs gen kill) liveTransfer_monotone
      (P := Sum.elim (fun b => b ∈ blocks ∧ ∃ s ∈ succs b, ∃ c,
          Relation.ReflTransGen (fun a c => c ∈ succs a ∧ kill a = false) s c ∧ gen c = true)
        (fun b => b ∈ blocks ∧ ∃ c,
          Relation.ReflTransGen (fun a c => c ∈ succs a ∧ kill a = false) b c ∧ gen c = true))
      (fun s hs k hk htrue => ?_) hlive
    cases k with
    | inl b =>
      rw [liveTransfer, List.any_eq_true] at htrue
      obtain ⟨c, hc, hset⟩ := htrue
      exact ⟨mem_liveCells_inl.mp hk, c, hc, (hs _ hset).2⟩
    | inr b =>
      rw [liveTransfer, Bool.or_eq_true, Bool.and_eq_true, Bool.not_eq_true'] at htrue
      refine ⟨mem_liveCells_inr.mp hk, ?_⟩
      rcases htrue with hgen | ⟨hset, hkill⟩
      · exact ⟨b, .refl, hgen⟩
      · obtain ⟨-, s, hbs, c, hpath, hgen⟩ := hs _ hset
        exact ⟨c, .head ⟨hbs, hkill⟩ hpath, hgen⟩
  · rintro ⟨hb, c, hpath, hgen⟩
    induction hpath using Relation.ReflTransGen.head_induction_on with
    | refl =>
      have hin := solve_fixed liveTransfer_monotone _
        (mem_liveCells_inr.mpr hb : _ ∈ liveCells blocks) (f := liveTransfer succs gen kill)
      rw [← hin, liveTransfer, hgen, Bool.true_or]
    | head hstep _ ih =>
      exact solve_inr_of_succ hb hstep.1 hstep.2 (ih (hsucc _ hb _ hstep.1))

end Equations

/-! ### The scan of a block -/

/-- What an instruction does to a variable. An instruction that does both reads first. -/
structure Access where
  isRead : Bool
  isMustWrite : Bool

/-- There is a read, and no full write precedes it. -/
def ReadsFirst (l : List Access) : Prop :=
  ∃ pre a post, l = pre ++ a :: post ∧ a.isRead = true ∧ ∀ x ∈ pre, x.isMustWrite = false

/-- The two bits of a block. -/
structure BlockInfo where
  loadBeforeMustStore : Bool
  hasMustStore : Bool

/-- One access of the scan: a read counts as long as no full write has been seen. -/
def scanAccess (info : BlockInfo) (a : Access) : BlockInfo where
  loadBeforeMustStore := info.loadBeforeMustStore || (a.isRead && !info.hasMustStore)
  hasMustStore := info.hasMustStore || a.isMustWrite

/-- The scan of a block. -/
def scan (l : List Access) : BlockInfo := l.foldl scanAccess ⟨false, false⟩

@[simp] theorem not_readsFirst_nil : ¬ReadsFirst [] := by
  rintro ⟨pre, a, post, h, -⟩
  simp at h

theorem readsFirst_cons {a : Access} {l : List Access} :
    ReadsFirst (a :: l) ↔ a.isRead = true ∨ a.isMustWrite = false ∧ ReadsFirst l := by
  constructor
  · rintro ⟨pre, x, post, h, hread, hpre⟩
    cases pre with
    | nil =>
      obtain ⟨rfl, -⟩ := List.cons.inj h
      exact .inl hread
    | cons y pre =>
      obtain ⟨rfl, rfl⟩ := List.cons.inj h
      exact .inr ⟨hpre a List.mem_cons_self,
        pre, x, post, rfl, hread, fun z hz => hpre z (List.mem_cons_of_mem a hz)⟩
  · rintro (hread | ⟨hwrite, pre, x, post, rfl, hread, hpre⟩)
    · exact ⟨[], a, l, rfl, hread, by simp⟩
    · exact ⟨a :: pre, x, post, rfl, hread, List.forall_mem_cons.mpr ⟨hwrite, hpre⟩⟩

/-- A read in the first part, or one in the second if the first has no full write. -/
theorem readsFirst_append {l m : List Access} :
    ReadsFirst (l ++ m) ↔
      ReadsFirst l ∨ l.any Access.isMustWrite = false ∧ ReadsFirst m := by
  induction l with
  | nil => simp
  | cons a l ih =>
    rw [List.cons_append, readsFirst_cons, ih, readsFirst_cons, List.any_cons, Bool.or_eq_false_iff]
    tauto

private theorem foldl_scanAccess (l : List Access) (info : BlockInfo) :
    ((l.foldl scanAccess info).loadBeforeMustStore = true ↔
      info.loadBeforeMustStore = true ∨ info.hasMustStore = false ∧ ReadsFirst l) ∧
    (l.foldl scanAccess info).hasMustStore =
      (info.hasMustStore || l.any Access.isMustWrite) := by
  induction l generalizing info with
  | nil => simp
  | cons a l ih =>
    obtain ⟨hread, hwrite⟩ := ih (scanAccess info a)
    rw [List.foldl_cons]
    refine ⟨?_, by rw [hwrite, scanAccess, List.any_cons, Bool.or_assoc]⟩
    rw [hread, readsFirst_cons]
    simp only [scanAccess, Bool.or_eq_true, Bool.and_eq_true, Bool.not_eq_true',
      Bool.or_eq_false_iff]
    tauto

@[simp] theorem scan_loadBeforeMustStore {l : List Access} :
    (scan l).loadBeforeMustStore = true ↔ ReadsFirst l := by
  rw [scan, (foldl_scanAccess l _).1]
  simp

@[simp] theorem scan_hasMustStore {l : List Access} :
    (scan l).hasMustStore = l.any Access.isMustWrite := by
  rw [scan, (foldl_scanAccess l _).2, Bool.false_or]

/-! ### Paths -/

/-- The equations for scanned blocks. -/
def accessTransfer (succs : β → List β) (accesses : β → List Access) :
    (β ⊕ β → Bool) → β ⊕ β → Bool :=
  liveTransfer succs (fun b => (scan (accesses b)).loadBeforeMustStore)
    fun b => (scan (accesses b)).hasMustStore

/-- A path over blocks that do not write to a block that reads first is a path on which a read comes
before all full writes. -/
theorem exists_readsFirst_iff_path {succs : β → List β} {accesses : β → List Access} {b : β} :
    (∃ c, Relation.ReflTransGen
        (fun a c => c ∈ succs a ∧ (accesses a).any Access.isMustWrite = false) b c ∧
        ReadsFirst (accesses c)) ↔
      ∃ p, List.IsChain (fun a c => c ∈ succs a) (b :: p) ∧
        ReadsFirst ((b :: p).flatMap accesses) := by
  constructor
  · rintro ⟨c, hpath, hread⟩
    induction hpath using Relation.ReflTransGen.head_induction_on with
    | refl => exact ⟨[], List.isChain_singleton c, by simpa using hread⟩
    | @head a d hstep _ ih =>
      obtain ⟨p, hchain, hreads⟩ := ih
      refine ⟨d :: p, List.isChain_cons_cons.mpr ⟨hstep.1, hchain⟩, ?_⟩
      rw [List.flatMap_cons, readsFirst_append]
      exact .inr ⟨hstep.2, hreads⟩
  · rintro ⟨p, hchain, hreads⟩
    induction p generalizing b with
    | nil => exact ⟨b, .refl, by simpa using hreads⟩
    | cons d p ih =>
      obtain ⟨hbd, hrest⟩ := List.isChain_cons_cons.mp hchain
      rw [List.flatMap_cons, readsFirst_append] at hreads
      rcases hreads with hread | ⟨hwrite, hreads⟩
      · exact ⟨b, .refl, hread⟩
      · obtain ⟨c, hpath, hread⟩ := ih hrest hreads
        exact ⟨c, .head ⟨hbd, hwrite⟩ hpath, hread⟩

/-- **Liveness of memory is exact.** A variable is live into a block exactly when on some path
from the block a read comes before all full writes. -/
theorem live_iff_path [DecidableEq β] {succs : β → List β} {accesses : β → List Access}
    {blocks : List β} (hsucc : ∀ b ∈ blocks, ∀ s ∈ succs b, s ∈ blocks) {b : β} :
    solve (accessTransfer succs accesses) (liveCells blocks) (.inr b) = true ↔
      b ∈ blocks ∧ ∃ p, List.IsChain (fun a c => c ∈ succs a) (b :: p) ∧
        ReadsFirst ((b :: p).flatMap accesses) := by
  rw [accessTransfer, solve_inr_iff hsucc, ← exists_readsFirst_iff_path]
  simp only [scan_loadBeforeMustStore, scan_hasMustStore]

end Bao.Dataflow
