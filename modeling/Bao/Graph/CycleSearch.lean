import Mathlib.Data.List.Basic
import Mathlib.Data.Finset.Card
import Mathlib.Logic.Relation
import Mathlib.Order.WellFounded

/-!
# Depth-first search for a cycle

The search colours a vertex gray when it enters it and black when it has been through all of its
successors. It stops at the first edge into a gray vertex.

The gray vertices are those the search is inside of, so each of them reaches the current one, and
an edge into a gray vertex closes a cycle. A vertex turns black when all of its successors are
black, so no cycle leads through a black vertex: it is accessible (`Acc`) with respect to the
edges. No order of the roots or of the successors matters for either direction.
-/

namespace Bao.Graph

open Relation

universe u

/-- Not entered, entered, finished. -/
inductive Color
  | white
  | gray
  | black
deriving DecidableEq, Repr

variable {α : Type u} [DecidableEq α]

/-- Goes through the successors `cs` of `f` until an edge into a gray vertex is found, here or by
`visit`. `none`: out of fuel. -/
def searchSuccessors (visit : (α → Color) → α → Option ((α → Color) × Option (α × α))) (f : α) :
    (α → Color) → List α → Option ((α → Color) × Option (α × α))
  | color, [] => some (color, none)
  | color, c :: cs =>
    match color c with
    | .gray => some (color, some (f, c))
    | .black => searchSuccessors visit f color cs
    | .white =>
      match visit color c with
      | some (color', none) => searchSuccessors visit f color' cs
      | stopped => stopped

section Search

variable (next : α → List α)

/-- **The search from one vertex**: the colours it leaves and the edge it stopped at. -/
def dfsCycle : ℕ → (α → Color) → α → Option ((α → Color) × Option (α × α))
  | 0, _, _ => none
  | n + 1, color, f =>
    match searchSuccessors (dfsCycle n) f (Function.update color f .gray) (next f) with
    | some (color', none) => some (Function.update color' f .black, none)
    | stopped => stopped

/-- The search from each root that is still white. -/
def searchRoots (fuel : ℕ) : (α → Color) → List α → Option ((α → Color) × Option (α × α))
  | color, [] => some (color, none)
  | color, r :: rs =>
    match color r with
    | .white =>
      match dfsCycle next fuel color r with
      | some (color', none) => searchRoots fuel color' rs
      | stopped => stopped
    | _ => searchRoots fuel color rs

variable {next}

/-! ### What a search leaves behind -/

/-- No cycle leads through a black vertex, and no edge out of the black ones. -/
structure Finished (next : α → List α) (color : α → Color) : Prop where
  closed : ∀ b, color b = .black → ∀ c ∈ next b, color c = .black
  acc : ∀ b, color b = .black → Acc (fun c b => c ∈ next b) b

/-- The colours after a search that found nothing: the gray vertices are the same, and what was
black stays black. -/
structure Later (color color' : α → Color) : Prop where
  gray_iff : ∀ b, color' b = .gray ↔ color b = .gray
  black : ∀ b, color b = .black → color' b = .black

omit [DecidableEq α] in
theorem Later.refl (color : α → Color) : Later color color := ⟨fun _ => Iff.rfl, fun _ => id⟩

omit [DecidableEq α] in
theorem Later.trans {color₁ color₂ color₃ : α → Color} (h₁ : Later color₁ color₂)
    (h₂ : Later color₂ color₃) : Later color₁ color₃ :=
  ⟨fun b => (h₂.gray_iff b).trans (h₁.gray_iff b), fun b hb => h₂.black b (h₁.black b hb)⟩

/-- What a search out of `color` ends with: black vertices `done`, or an edge on a cycle. -/
structure Outcome (next : α → List α) (color : α → Color) (done : List α)
    (r : (α → Color) × Option (α × α)) : Prop where
  later : r.2 = none → Later color r.1
  finished : r.2 = none → Finished next r.1
  done : r.2 = none → ∀ b ∈ done, r.1 b = .black
  cycle : ∀ a c, r.2 = some (a, c) → c ∈ next a ∧ ReflTransGen (fun a c => c ∈ next a) c a

omit [DecidableEq α] in
/-- The successors, if the search of each white one has the outcome it should. -/
private theorem searchSuccessors_outcome
    {visit : (α → Color) → α → Option ((α → Color) × Option (α × α))} {f : α}
    (hvisit : ∀ color c r, color c = .white → Finished next color →
      (∀ g, color g = .gray → ReflTransGen (fun a c => c ∈ next a) g c) →
      visit color c = some r → Outcome next color [c] r)
    (cs : List α) (hcs : ∀ c ∈ cs, c ∈ next f) {color : α → Color}
    {r : (α → Color) × Option (α × α)} (hfin : Finished next color)
    (hgray : ∀ g, color g = .gray → ReflTransGen (fun a c => c ∈ next a) g f)
    (h : searchSuccessors visit f color cs = some r) : Outcome next color cs r := by
  induction cs generalizing color with
  | nil =>
    obtain rfl : (color, none) = r := Option.some.inj h
    exact ⟨fun _ => .refl color, fun _ => hfin, fun _ b hb => by simp at hb, fun a c hac => by
      simp at hac⟩
  | cons c cs ih =>
    have hc : c ∈ next f := hcs c (List.mem_cons_self ..)
    have hcs' : ∀ c ∈ cs, c ∈ next f := fun d hd => hcs d (List.mem_cons_of_mem _ hd)
    rw [searchSuccessors] at h
    split at h
    · -- the gray successor reaches `f`, and the edge from `f` leads back
      next hg =>
        obtain rfl : (color, some (f, c)) = r := Option.some.inj h
        refine ⟨fun h => by simp at h, fun h => by simp at h, fun h => by simp at h, ?_⟩
        rintro a d hac
        obtain ⟨rfl, rfl⟩ := Prod.mk.inj (Option.some.inj hac)
        exact ⟨hc, hgray _ hg⟩
    · next hb =>
        have hout := ih hcs' hfin hgray h
        refine ⟨hout.later, hout.finished, fun hr b hmem => ?_, hout.cycle⟩
        rcases List.mem_cons.mp hmem with rfl | hmem
        · exact (hout.later hr).black b hb
        · exact hout.done hr b hmem
    · next hw =>
        have hgray' : ∀ g, color g = .gray → ReflTransGen (fun a c => c ∈ next a) g c :=
          fun g hg => (hgray g hg).tail hc
        split at h
        · next color' hv =>
            have hfirst := hvisit color c _ hw hfin hgray' hv
            have hlater := hfirst.later rfl
            have hout := ih hcs' (hfirst.finished rfl)
              (fun g hg => hgray g ((hlater.gray_iff g).mp hg)) h
            refine ⟨fun hr => hlater.trans (hout.later hr), hout.finished, fun hr b hmem => ?_,
              hout.cycle⟩
            rcases List.mem_cons.mp hmem with rfl | hmem
            · exact (hout.later hr).black b (hfirst.done rfl b (List.mem_singleton_self b))
            · exact hout.done hr b hmem
        · next hstop =>
            have hfirst := hvisit color c r hw hfin hgray' h
            have hr : r.2 ≠ none := by
              rintro hr
              obtain ⟨color', e⟩ := r
              obtain rfl : e = none := hr
              exact hstop color' h
            exact ⟨fun h => absurd h hr, fun h => absurd h hr, fun h => absurd h hr, hfirst.cycle⟩

private theorem finished_gray {color : α → Color} {f : α} (hf : color f = .white)
    (h : Finished next color) : Finished next (Function.update color f .gray) := by
  have hne : ∀ b, color b = .black → b ≠ f := fun b hb hbf => by simp [← hbf, hb] at hf
  refine ⟨fun b hb c hc => ?_, fun b hb => ?_⟩
  · have hbf : b ≠ f := fun hbf => by simp [hbf] at hb
    rw [Function.update_of_ne hbf] at hb
    rw [Function.update_of_ne (hne c (h.closed b hb c hc))]
    exact h.closed b hb c hc
  · have hbf : b ≠ f := fun hbf => by simp [hbf] at hb
    rw [Function.update_of_ne hbf] at hb
    exact h.acc b hb

/-- A vertex all of whose successors are black can turn black. -/
private theorem finished_black {color : α → Color} {f : α} (hf : ∀ c ∈ next f, color c = .black)
    (h : Finished next color) : Finished next (Function.update color f .black) := by
  have hblack : ∀ c, color c = .black → Function.update color f .black c = .black := by
    intro c hc
    rcases eq_or_ne c f with rfl | hcf
    · exact Function.update_self ..
    · rwa [Function.update_of_ne hcf]
  refine ⟨fun b hb c hc => ?_, fun b hb => ?_⟩
  · rcases eq_or_ne b f with rfl | hbf
    · exact hblack c (hf c hc)
    · rw [Function.update_of_ne hbf] at hb
      exact hblack c (h.closed b hb c hc)
  · rcases eq_or_ne b f with rfl | hbf
    · exact Acc.intro b fun c hc => h.acc c (hf c hc)
    · rw [Function.update_of_ne hbf] at hb
      exact h.acc b hb

private theorem later_black {color color' : α → Color} {f : α} (hf : color f = .white)
    (h : Later (Function.update color f .gray) color') :
    Later color (Function.update color' f .black) := by
  refine ⟨fun b => ?_, fun b hb => ?_⟩
  · rcases eq_or_ne b f with rfl | hbf
    · simp [hf]
    · rw [Function.update_of_ne hbf, h.gray_iff, Function.update_of_ne hbf]
  · have hbf : b ≠ f := fun hbf => by simp [← hbf, hb] at hf
    rw [Function.update_of_ne hbf]
    exact h.black b (by rwa [Function.update_of_ne hbf])

/-- **The search from one vertex.** -/
theorem dfsCycle_outcome (n : ℕ) {color : α → Color} {f : α}
    {r : (α → Color) × Option (α × α)} (hf : color f = .white) (hfin : Finished next color)
    (hgray : ∀ g, color g = .gray → ReflTransGen (fun a c => c ∈ next a) g f)
    (h : dfsCycle next n color f = some r) : Outcome next color [f] r := by
  induction n generalizing color f r with
  | zero => simp [dfsCycle] at h
  | succ n ih =>
    have hinside : ∀ {r}, searchSuccessors (dfsCycle next n) f (Function.update color f .gray)
        (next f) = some r → Outcome next (Function.update color f .gray) (next f) r := by
      refine fun hr => searchSuccessors_outcome
        (fun color c r hc hfin hgray hv => ih hc hfin hgray hv) (next f) (fun _ => id)
        (finished_gray hf hfin) (fun g hg => ?_) hr
      rcases eq_or_ne g f with rfl | hgf
      · exact .refl
      · rw [Function.update_of_ne hgf] at hg
        exact hgray g hg
    rw [dfsCycle] at h
    split at h
    · next color' hs =>
        obtain rfl : (Function.update color' f .black, none) = r := Option.some.inj h
        have hout := hinside hs
        refine ⟨fun _ => later_black hf (hout.later rfl),
          fun _ => finished_black (hout.done rfl) (hout.finished rfl), fun _ b hb => ?_,
          fun a c hac => by simp at hac⟩
        obtain rfl : b = f := List.mem_singleton.mp hb
        exact Function.update_self ..
    · next hstop =>
        have hr : r.2 ≠ none := by
          rintro hr
          obtain ⟨color', e⟩ := r
          obtain rfl : e = none := hr
          exact hstop color' h
        exact ⟨fun h => absurd h hr, fun h => absurd h hr, fun h => absurd h hr,
          (hinside h).cycle⟩

/-! ### Termination -/

/-- The vertices not entered yet. -/
private def whites (vertices : Finset α) (color : α → Color) : Finset α :=
  vertices.filter fun b => color b = .white

omit [DecidableEq α] in
private theorem whites_subset {vertices : Finset α} {color color' : α → Color}
    (h : Later color color') : whites vertices color' ⊆ whites vertices color := by
  intro b hb
  obtain ⟨hmem, hw⟩ := Finset.mem_filter.mp hb
  refine Finset.mem_filter.mpr ⟨hmem, ?_⟩
  rcases hc : color b with _ | _ | _
  · rfl
  · rw [(h.gray_iff b).mpr hc] at hw
    cases hw
  · rw [h.black b hc] at hw
    cases hw

private theorem whites_enter {vertices : Finset α} {color : α → Color} {f : α}
    (hmem : f ∈ vertices) (hf : color f = .white) :
    (whites vertices (Function.update color f .gray)).card < (whites vertices color).card := by
  refine Finset.card_lt_card ⟨fun b hb => ?_, fun hsub => ?_⟩
  · obtain ⟨hb, hw⟩ := Finset.mem_filter.mp hb
    refine Finset.mem_filter.mpr ⟨hb, ?_⟩
    rcases eq_or_ne b f with rfl | hbf
    · exact hf
    · rwa [Function.update_of_ne hbf] at hw
  · have hw := (Finset.mem_filter.mp (hsub (Finset.mem_filter.mpr ⟨hmem, hf⟩))).2
    rw [Function.update_self] at hw
    cases hw

private theorem searchSuccessors_isSome {vertices : Finset α} {n : ℕ} {f : α}
    (hvisit : ∀ color c, c ∈ vertices → color c = .white → Finished next color →
      (∀ g, color g = .gray → ReflTransGen (fun a c => c ∈ next a) g c) →
      (whites vertices color).card ≤ n → (dfsCycle next n color c).isSome)
    (cs : List α) (hcs : ∀ c ∈ cs, c ∈ next f ∧ c ∈ vertices) {color : α → Color}
    (hfin : Finished next color)
    (hgray : ∀ g, color g = .gray → ReflTransGen (fun a c => c ∈ next a) g f)
    (hn : (whites vertices color).card ≤ n) :
    (searchSuccessors (dfsCycle next n) f color cs).isSome := by
  induction cs generalizing color with
  | nil => rfl
  | cons c cs ih =>
    obtain ⟨hc, hmem⟩ := hcs c (List.mem_cons_self ..)
    have hcs' : ∀ c ∈ cs, c ∈ next f ∧ c ∈ vertices := fun d hd => hcs d (List.mem_cons_of_mem _ hd)
    rw [searchSuccessors]
    split
    · rfl
    · exact ih hcs' hfin hgray hn
    · next hw =>
        have hgray' : ∀ g, color g = .gray → ReflTransGen (fun a c => c ∈ next a) g c :=
          fun g hg => (hgray g hg).tail hc
        have hsome := hvisit color c hmem hw hfin hgray' hn
        split
        · next color' hv =>
            have hout := dfsCycle_outcome n hw hfin hgray' hv
            have hlater := hout.later rfl
            exact ih hcs' (hout.finished rfl) (fun g hg => hgray g ((hlater.gray_iff g).mp hg))
              ((Finset.card_le_card (whites_subset hlater)).trans hn)
        · exact hsome

/-- A search with more fuel than there are white vertices ends. -/
theorem dfsCycle_isSome {vertices : Finset α}
    (hnext : ∀ a ∈ vertices, ∀ c ∈ next a, c ∈ vertices) (n : ℕ) {color : α → Color} {f : α}
    (hmem : f ∈ vertices) (hf : color f = .white) (hfin : Finished next color)
    (hgray : ∀ g, color g = .gray → ReflTransGen (fun a c => c ∈ next a) g f)
    (hn : (whites vertices color).card ≤ n) : (dfsCycle next n color f).isSome := by
  induction n generalizing color f with
  | zero =>
    have hlt := whites_enter hmem hf
    omega
  | succ n ih =>
    have hlt := whites_enter hmem hf
    have hsome := searchSuccessors_isSome (n := n) (f := f)
      (fun color c hc hw hfin hgray hle => ih hc hw hfin hgray hle) (next f)
      (fun c hc => ⟨hc, hnext f hmem c hc⟩) (finished_gray hf hfin) (fun g hg => by
        rcases eq_or_ne g f with rfl | hgf
        · exact .refl
        · rw [Function.update_of_ne hgf] at hg
          exact hgray g hg) (by omega)
    rw [dfsCycle]
    split
    · rfl
    · exact hsome

/-! ### The search from the roots -/

private theorem searchRoots_outcome {fuel : ℕ} (roots : List α) {color : α → Color}
    {r : (α → Color) × Option (α × α)} (hfin : Finished next color)
    (hgray : ∀ g, color g ≠ .gray) (h : searchRoots next fuel color roots = some r) :
    Outcome next color roots r := by
  induction roots generalizing color with
  | nil =>
    obtain rfl : (color, none) = r := Option.some.inj h
    exact ⟨fun _ => .refl color, fun _ => hfin, fun _ b hb => by simp at hb, fun a c hac => by
      simp at hac⟩
  | cons f rs ih =>
    rw [searchRoots] at h
    split at h
    · next hw =>
        have hgray' : ∀ g, color g = .gray → ReflTransGen (fun a c => c ∈ next a) g f :=
          fun g hg => absurd hg (hgray g)
        split at h
        · next color' hv =>
            have hfirst := dfsCycle_outcome fuel hw hfin hgray' hv
            have hlater := hfirst.later rfl
            have hout := ih (hfirst.finished rfl)
              (fun g hg => hgray g ((hlater.gray_iff g).mp hg)) h
            refine ⟨fun hr => hlater.trans (hout.later hr), hout.finished, fun hr b hmem => ?_,
              hout.cycle⟩
            rcases List.mem_cons.mp hmem with rfl | hmem
            · exact (hout.later hr).black b (hfirst.done rfl b (List.mem_singleton_self b))
            · exact hout.done hr b hmem
        · next hstop =>
            have hfirst := dfsCycle_outcome fuel hw hfin hgray' h
            have hr : r.2 ≠ none := by
              rintro hr
              obtain ⟨color', e⟩ := r
              obtain rfl : e = none := hr
              exact hstop color' h
            exact ⟨fun h => absurd h hr, fun h => absurd h hr, fun h => absurd h hr, hfirst.cycle⟩
    · next hw =>
        have hout := ih hfin hgray h
        refine ⟨hout.later, hout.finished, fun hr b hmem => ?_, hout.cycle⟩
        rcases List.mem_cons.mp hmem with rfl | hmem
        · -- a root that is not white any more was finished by an earlier search
          rcases hc : color b with _ | _ | _
          · exact absurd hc hw
          · exact absurd hc (hgray b)
          · exact (hout.later hr).black b hc
        · exact hout.done hr b hmem

private theorem searchRoots_isSome {vertices : Finset α}
    (hnext : ∀ a ∈ vertices, ∀ c ∈ next a, c ∈ vertices) {fuel : ℕ} (hfuel : vertices.card ≤ fuel)
    (roots : List α) (hroots : ∀ r ∈ roots, r ∈ vertices) {color : α → Color}
    (hfin : Finished next color) (hgray : ∀ g, color g ≠ .gray) :
    (searchRoots next fuel color roots).isSome := by
  induction roots generalizing color with
  | nil => rfl
  | cons f rs ih =>
    have hrs : ∀ r ∈ rs, r ∈ vertices := fun d hd => hroots d (List.mem_cons_of_mem _ hd)
    rw [searchRoots]
    split
    · next hw =>
        have hgray' : ∀ g, color g = .gray → ReflTransGen (fun a c => c ∈ next a) g f :=
          fun g hg => absurd hg (hgray g)
        have hsome := dfsCycle_isSome hnext fuel (hroots f (List.mem_cons_self ..)) hw hfin hgray'
          ((Finset.card_filter_le _ _).trans hfuel)
        split
        · next color' hv =>
            have hout := dfsCycle_outcome fuel hw hfin hgray' hv
            exact ih hrs (hout.finished rfl)
              (fun g hg => hgray g (((hout.later rfl).gray_iff g).mp hg))
        · exact hsome
    · exact ih hrs hfin hgray

end Search

/-- The edge at which the search from the roots stops, if it does: `fuel` bounds the depth. -/
def findCycle (next : α → List α) (fuel : ℕ) (roots : List α) : Option (α × α) :=
  ((searchRoots next fuel (fun _ => .white) roots).bind Prod.snd)

section FindCycle

variable {next : α → List α} {vertices : Finset α} {fuel : ℕ} {roots : List α}

omit [DecidableEq α] in
private theorem finished_white : Finished next fun _ => .white :=
  ⟨fun _ hb => Color.noConfusion hb, fun _ hb => Color.noConfusion hb⟩

omit [DecidableEq α] in
/-- An accessible vertex is on no cycle. -/
theorem not_rel_self_of_acc {r : α → α → Prop} {a : α} (h : Acc r a) : ¬r a a := by
  induction h with
  | intro a _ ih => exact fun ha => ih a ha ha

/-- **What the search reports is true**: the edge leads back to a vertex that reaches it. -/
theorem findCycle_sound {a c : α} (h : findCycle next fuel roots = some (a, c)) :
    c ∈ next a ∧ ReflTransGen (fun a c => c ∈ next a) c a := by
  obtain ⟨r, hr, hac⟩ := Option.bind_eq_some_iff.mp h
  exact (searchRoots_outcome roots finished_white (fun _ => by simp) hr).cycle a c hac

/-- **What the search does not report is not there**: every root is accessible. -/
theorem findCycle_complete (hnext : ∀ a ∈ vertices, ∀ c ∈ next a, c ∈ vertices)
    (hroots : ∀ r ∈ roots, r ∈ vertices) (hfuel : vertices.card ≤ fuel)
    (h : findCycle next fuel roots = none) :
    ∀ r ∈ roots, Acc (fun c b => c ∈ next b) r := by
  obtain ⟨r, hr⟩ := Option.isSome_iff_exists.mp
    (searchRoots_isSome hnext hfuel roots hroots finished_white (fun _ => by simp))
  have hout := searchRoots_outcome roots finished_white (fun _ => by simp) hr
  have hnone : r.2 = none := by
    rw [findCycle, hr] at h
    exact h
  exact fun b hb => (hout.finished hnone).acc b (hout.done hnone b hb)

/-- **The search is exact.** If every vertex with a successor is a root, it reports nothing if and
only if there is no cycle. -/
theorem findCycle_eq_none_iff (hnext : ∀ a ∈ vertices, ∀ c ∈ next a, c ∈ vertices)
    (hroots : ∀ r ∈ roots, r ∈ vertices) (hfuel : vertices.card ≤ fuel)
    (hall : ∀ a c, c ∈ next a → a ∈ roots) :
    findCycle next fuel roots = none ↔ ∀ a, ¬TransGen (fun a c => c ∈ next a) a a := by
  refine ⟨fun h a ha => ?_, fun h => ?_⟩
  · obtain ⟨c, hac, -⟩ := TransGen.head'_iff.mp ha
    have hacc := findCycle_complete hnext hroots hfuel h a (hall a c hac)
    have hloop : TransGen (fun c b => c ∈ next b) a a := transGen_swap.mp ha
    exact not_rel_self_of_acc hacc.transGen hloop
  · rcases hf : findCycle next fuel roots with _ | ⟨a, c⟩
    · rfl
    · obtain ⟨hac, hca⟩ := findCycle_sound hf
      exact absurd (TransGen.tail' hca hac) (h c)

end FindCycle

end Bao.Graph
