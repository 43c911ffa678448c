import Mathlib

/-!
# Breadth-first search for a path

A search with a worklist, a set of visited vertices and a map from every visited vertex but the
source to its predecessor. It stops at the target and walks the predecessors back.

With fuel for every vertex it returns a path without repeated vertices, or the target cannot be
reached (`findPath_spec`).
-/

namespace Bao.Graph.BreadthFirst

open Relation

variable {V : Type*} [DecidableEq V]

/-- The state of a search; the newest entry of the map comes first. -/
structure Search (V : Type*) where
  worklist : List V
  visited : List V
  predecessor : List (V × V)

/-- Walks from a vertex back to the source; the path starts with that vertex. -/
def walkBack (src : V) (predecessor : List (V × V)) : ℕ → V → List V → Option (List V)
  | 0, _, _ => none
  | fuel + 1, cursor, path =>
    if cursor = src then some path
    else match predecessor.lookup cursor with
      | some p => walkBack src predecessor fuel p (p :: path)
      | none => none

/-- Looks at the successors of a vertex. The search ends at the target. -/
def scan (src dst current : V) : List V → Search V → Option (List V) ⊕ Search V
  | [], s => .inr s
  | succ :: rest, s =>
    if succ ∈ s.visited then scan src dst current rest s
    else
      let predecessor := (succ, current) :: s.predecessor
      if succ = dst then
        .inl (walkBack src predecessor (predecessor.length + 1) dst [dst])
      else scan src dst current rest ⟨s.worklist ++ [succ], succ :: s.visited, predecessor⟩

/-- Takes one vertex after the other from the worklist. -/
def search (next : V → List V) (src dst : V) : ℕ → Search V → Option (List V)
  | 0, _ => none
  | fuel + 1, s =>
    match s.worklist with
    | [] => none
    | current :: worklist =>
      match scan src dst current (next current) { s with worklist := worklist } with
      | .inl path => path
      | .inr s => search next src dst fuel s

/-- **The search** for a path from the source to the target. -/
def findPath (next : V → List V) (src dst : V) (fuel : ℕ) : Option (List V) :=
  if src = dst then some [src]
  else search next src dst fuel ⟨[src], [src], []⟩

/-- A path from the source to the target without repeated vertices. -/
structure IsPath (next : V → List V) (src dst : V) (path : List V) : Prop where
  head : path.head? = some src
  last : path.getLast? = some dst
  chain : path.IsChain fun u v => v ∈ next u
  nodup : path.Nodup

/-! ### The predecessors -/

/-- Every entry leads to the source or to an older entry. -/
def IsTree (next : V → List V) (src : V) : List (V × V) → Prop
  | [] => True
  | (v, p) :: rest =>
    v ≠ src ∧ v ∉ rest.map Prod.fst ∧ (p = src ∨ p ∈ rest.map Prod.fst) ∧ v ∈ next p ∧
      IsTree next src rest

section Tree

variable {next : V → List V} {src dst : V}

private theorem IsTree.lookup_append {pre rest : List (V × V)} (h : IsTree next src (pre ++ rest))
    {v : V} (hv : v ∈ rest.map Prod.fst) : (pre ++ rest).lookup v = rest.lookup v := by
  induction pre with
  | nil => rfl
  | cons e pre ih =>
    obtain ⟨-, hfresh, -, -, hrest⟩ := h
    have hne : v ≠ e.1 := by
      rintro rfl
      exact hfresh (by simp [hv])
    rw [List.cons_append, List.lookup_cons, beq_false_of_ne hne, ih hrest]

omit [DecidableEq V] in
private theorem IsTree.of_append {pre rest : List (V × V)} (h : IsTree next src (pre ++ rest)) :
    IsTree next src rest := by
  induction pre with
  | nil => exact h
  | cons e pre ih => exact ih h.2.2.2.2

omit [DecidableEq V] in
/-- One more edge at the end of a path. -/
private theorem IsPath.concat {front : List V} {p v : V} (h : IsPath next src p front)
    (hv : v ∈ next p) (hfresh : v ∉ front) : IsPath next src v (front ++ [v]) where
  head := by rw [List.head?_append, h.head, Option.some_or]
  last := List.getLast?_concat
  chain := List.isChain_append.mpr ⟨h.chain, List.isChain_singleton v, fun x hx y hy => by
    obtain rfl := Option.some.inj (h.last.symm.trans hx)
    obtain rfl := Option.some.inj hy
    exact hv⟩
  nodup := List.nodup_append.mpr ⟨h.nodup, List.nodup_singleton v, fun x hx y hy => by
    rintro rfl
    exact hfresh (List.mem_singleton.mp hy ▸ hx)⟩

/-- **Walking back** along a tree leads to the source, on a path to where it started. -/
private theorem IsTree.walkBack {predecessor : List (V × V)} (h : IsTree next src predecessor)
    {pre rest : List (V × V)} (hsplit : predecessor = pre ++ rest) {cursor : V}
    (hcursor : cursor = src ∨ cursor ∈ rest.map Prod.fst) {fuel : ℕ} (hfuel : rest.length < fuel)
    (path : List V) : ∃ front, IsPath next src cursor front ∧
      (∀ v ∈ front, v = src ∨ v ∈ rest.map Prod.fst) ∧
      BreadthFirst.walkBack src predecessor fuel cursor (cursor :: path) =
        some (front ++ path) := by
  induction rest generalizing pre cursor fuel path with
  | nil =>
    obtain rfl : cursor = src := by simpa using hcursor
    obtain ⟨fuel, rfl⟩ : ∃ n, fuel = n + 1 := ⟨fuel - 1, by omega⟩
    exact ⟨[cursor], ⟨rfl, rfl, List.isChain_singleton _, List.nodup_singleton _⟩, by simp,
      if_pos rfl⟩
  | cons e rest ih =>
    obtain ⟨v, p⟩ := e
    rw [List.length_cons] at hfuel
    -- the walk takes a step only at the entry of the cursor
    by_cases hold : cursor = src ∨ cursor ∈ rest.map Prod.fst
    · obtain ⟨front, hfront, hmem, hwalk⟩ := ih (by rw [hsplit, List.append_cons]) hold
        (Nat.lt_of_succ_lt hfuel) path
      exact ⟨front, hfront, fun w hw => (hmem w hw).imp_right (List.mem_cons_of_mem _), hwalk⟩
    · obtain ⟨hsrc, hrest⟩ := not_or.mp hold
      obtain rfl : cursor = v := by simpa [hsrc, hrest] using hcursor
      subst hsplit
      obtain ⟨-, hfresh, hp, hnext, -⟩ := h.of_append
      obtain ⟨fuel, rfl⟩ : ∃ n, fuel = n + 1 := ⟨fuel - 1, by omega⟩
      obtain ⟨front, hfront, hmem, hwalk⟩ := ih (List.append_cons pre (cursor, p) rest) hp
        (Nat.lt_of_succ_lt_succ hfuel) (cursor :: path)
      have hcursor : cursor ∉ front := fun hw => hold (hmem cursor hw)
      refine ⟨front ++ [cursor], hfront.concat hnext hcursor, fun w hw => ?_, ?_⟩
      · rcases List.mem_append.mp hw with hw | hw
        · exact (hmem w hw).imp_right (List.mem_cons_of_mem _)
        · exact .inr (List.mem_cons.mpr (.inl (List.mem_singleton.mp hw)))
      · rw [BreadthFirst.walkBack, if_neg hsrc, h.lookup_append (by simp), List.lookup_cons_self]
        simpa using hwalk

end Tree

/-! ### The search -/

section Search

variable {next : V → List V} {src dst : V}

/-- The invariant of a search that has not found the target. -/
structure Search.Invariant (next : V → List V) (src dst : V) (s : Search V) : Prop where
  tree : IsTree next src s.predecessor
  visited_iff : ∀ v, v ∈ s.visited ↔ v = src ∨ v ∈ s.predecessor.map Prod.fst
  nodup : s.visited.Nodup
  worklist : ∀ v ∈ s.worklist, v ∈ s.visited
  target : dst ∉ s.visited

/-- Vertices that are neither on the worklist nor exempt have visited successors only. -/
def Search.Closed (next : V → List V) (s : Search V) (exempt : V → Prop) : Prop :=
  ∀ v ∈ s.visited, v ∉ s.worklist → ¬exempt v → ∀ w ∈ next v, w ∈ s.visited

/-- **Scanning** the successors of a visited vertex finds a path to the target or visits them all,
and each vertex it visits is put on the worklist. -/
private theorem scan_spec {current : V} {successors : List V} {s : Search V}
    (hs : s.Invariant next src dst) (hcurrent : current ∈ s.visited)
    (hsucc : ∀ v ∈ successors, v ∈ next current) (hclosed : s.Closed next (· = current)) :
    (∀ path, scan src dst current successors s = .inl path →
      ∃ front, path = some front ∧ IsPath next src dst front) ∧
    ∀ s', scan src dst current successors s = .inr s' → s'.Invariant next src dst ∧
      s'.Closed next (· = current) ∧ (∀ v ∈ s.visited, v ∈ s'.visited) ∧
      (∀ v ∈ successors, v ∈ s'.visited) ∧
      s'.visited.length + s.worklist.length = s.visited.length + s'.worklist.length := by
  induction successors generalizing s with
  | nil =>
    refine ⟨fun path h => (by cases h), fun s' h => ?_⟩
    cases h
    exact ⟨hs, hclosed, fun _ h => h, by simp, rfl⟩
  | cons v successors ih =>
    obtain ⟨hv, hsucc⟩ := List.forall_mem_cons.mp hsucc
    rw [scan]
    by_cases hmem : v ∈ s.visited
    · rw [if_pos hmem]
      refine ⟨(ih hs hcurrent hsucc hclosed).1, fun s' h => ?_⟩
      obtain ⟨hinv, hcl, hsub, hall, hlength⟩ := (ih hs hcurrent hsucc hclosed).2 s' h
      exact ⟨hinv, hcl, hsub, List.forall_mem_cons.mpr ⟨hsub v hmem, hall⟩, hlength⟩
    · rw [if_neg hmem]
      -- the new entry keeps the tree a tree, also when it is the target
      have htree : IsTree next src ((v, current) :: s.predecessor) := by
        refine ⟨?_, fun hv => hmem ((hs.visited_iff v).mpr (.inr hv)),
          (hs.visited_iff _).mp hcurrent, hv, hs.tree⟩
        rintro rfl
        exact hmem ((hs.visited_iff v).mpr (.inl rfl))
      by_cases hdst : v = dst
      · -- the target: the predecessors are walked back
        subst hdst
        rw [if_pos rfl]
        refine ⟨fun path h => ?_, fun s' h => by cases h⟩
        have hcursor : v = src ∨ v ∈ ((v, current) :: s.predecessor).map Prod.fst :=
          .inr List.mem_cons_self
        obtain ⟨front, hfront, -, hwalk⟩ := htree.walkBack (List.nil_append _).symm hcursor
          (Nat.lt_succ_self _) []
        rw [List.append_nil] at hwalk
        exact ⟨front, (Sum.inl.inj h).symm.trans hwalk, hfront⟩
      · rw [if_neg hdst]
        have hinv : Search.Invariant next src dst
            ⟨s.worklist ++ [v], v :: s.visited, (v, current) :: s.predecessor⟩ := by
          refine ⟨htree, fun u => ?_, List.nodup_cons.mpr ⟨hmem, hs.nodup⟩, fun u hu => ?_, ?_⟩
          · rw [List.mem_cons, hs.visited_iff, List.map_cons, List.mem_cons]
            tauto
          · rcases List.mem_append.mp hu with hu | hu
            · exact List.mem_cons_of_mem _ (hs.worklist u hu)
            · exact List.mem_cons.mpr (.inl (List.mem_singleton.mp hu))
          · exact fun h => (List.mem_cons.mp h).elim (fun h => hdst h.symm) hs.target
        have hcl : Search.Closed next
            ⟨s.worklist ++ [v], v :: s.visited, (v, current) :: s.predecessor⟩ (· = current) := by
          intro u hu hwork hne w hw
          obtain ⟨hwork, hv⟩ := not_or.mp (mt List.mem_append.mpr hwork)
          have hu : u ∈ s.visited := (List.mem_cons.mp hu).resolve_left (by simpa using hv)
          exact List.mem_cons_of_mem _ (hclosed u hu hwork hne w hw)
        obtain ⟨hfound, hrest⟩ := ih hinv (List.mem_cons_of_mem _ hcurrent) hsucc hcl
        refine ⟨hfound, fun s' h => ?_⟩
        obtain ⟨hinv, hcl, hsub, hall, hlength⟩ := hrest s' h
        obtain ⟨hv, hsub⟩ := List.forall_mem_cons.mp hsub
        refine ⟨hinv, hcl, hsub, List.forall_mem_cons.mpr ⟨hv, hall⟩, ?_⟩
        simp only [List.length_cons, List.length_append, List.length_nil] at hlength
        omega

omit [DecidableEq V] in
private theorem IsTree.mem_univ {univ : List V} (hsrc : src ∈ univ)
    (huniv : ∀ v ∈ univ, ∀ w ∈ next v, w ∈ univ) {predecessor : List (V × V)}
    (h : IsTree next src predecessor) : ∀ v ∈ predecessor.map Prod.fst, v ∈ univ := by
  induction predecessor with
  | nil => simp
  | cons e predecessor ih =>
    obtain ⟨-, -, hp, hv, hrest⟩ := h
    have hp : e.2 ∈ univ := by
      rcases hp with hp | hp
      · rwa [hp]
      · exact ih hrest _ hp
    exact List.forall_mem_cons.mpr ⟨huniv _ hp _ hv, ih hrest⟩

omit [DecidableEq V] in
/-- No more vertices are visited than there are. -/
private theorem Search.Invariant.length_visited_le {univ : List V} (hsrc : src ∈ univ)
    (huniv : ∀ v ∈ univ, ∀ w ∈ next v, w ∈ univ) {s : Search V} (hs : s.Invariant next src dst) :
    s.visited.length ≤ univ.length := by
  refine (hs.nodup.subperm fun v hv => ?_).length_le
  rcases (hs.visited_iff v).mp hv with rfl | hv
  · exact hsrc
  · exact hs.tree.mem_univ hsrc huniv v hv

/-- **The search** returns a path, or the target cannot be reached. `univ` holds all vertices there
are. -/
private theorem search_spec {univ : List V} (hsrc : src ∈ univ)
    (huniv : ∀ v ∈ univ, ∀ w ∈ next v, w ∈ univ) {fuel : ℕ} {s : Search V}
    (hs : s.Invariant next src dst) (hclosed : s.Closed next fun _ => False)
    (hfuel : univ.length + s.worklist.length < s.visited.length + fuel) :
    (∃ front, search next src dst fuel s = some front ∧ IsPath next src dst front) ∨
      search next src dst fuel s = none ∧ ¬ReflTransGen (fun u v => v ∈ next u) src dst := by
  induction fuel generalizing s with
  | zero =>
    have hle := hs.length_visited_le hsrc huniv
    omega
  | succ fuel ih =>
    rw [search]
    cases hwork : s.worklist with
    | nil =>
      -- the visited vertices are closed under successors
      have hvisited : ∀ v, ReflTransGen (fun u v => v ∈ next u) src v → v ∈ s.visited := by
        intro v hv
        induction hv with
        | refl => exact (hs.visited_iff _).mpr (.inl rfl)
        | tail _ hstep ih => exact hclosed _ ih (by simp [hwork]) id _ hstep
      exact .inr ⟨rfl, fun hreach => hs.target (hvisited dst hreach)⟩
    | cons current worklist =>
      rw [hwork, List.length_cons] at hfuel
      have hinv : Search.Invariant next src dst { s with worklist := worklist } :=
        ⟨hs.tree, hs.visited_iff, hs.nodup,
          fun v hv => hs.worklist v (hwork ▸ List.mem_cons_of_mem _ hv), hs.target⟩
      have hcl : Search.Closed next { s with worklist := worklist } (· = current) :=
        fun v hv hmem hne => hclosed v hv (by simp [hwork, hmem, hne]) id
      obtain ⟨hfound, hrest⟩ := scan_spec hinv (hs.worklist current (by simp [hwork]))
        (fun _ h => h) hcl
      simp only
      cases hscan : scan src dst current (next current) { s with worklist := worklist } with
      | inl path =>
        obtain ⟨front, rfl, hfront⟩ := hfound path hscan
        exact .inl ⟨front, rfl, hfront⟩
      | inr s' =>
        obtain ⟨hinv, hcl, -, hall, hlength⟩ := hrest s' hscan
        refine ih hinv (fun v hv hmem _ w hw => ?_) (by simp only at hlength; omega)
        by_cases hcurrent : v = current
        · subst hcurrent
          exact hall w hw
        · exact hcl v hv hmem hcurrent w hw

/-- **The search is right.** With fuel for all vertices it returns a path, or the target cannot be
reached. -/
theorem findPath_spec {univ : List V} (hsrc : src ∈ univ)
    (huniv : ∀ v ∈ univ, ∀ w ∈ next v, w ∈ univ) :
    (∃ path, findPath next src dst (univ.length + 1) = some path ∧ IsPath next src dst path) ∨
      findPath next src dst (univ.length + 1) = none ∧
        ¬ReflTransGen (fun u v => v ∈ next u) src dst := by
  rw [findPath]
  by_cases hdst : src = dst
  · subst hdst
    rw [if_pos rfl]
    exact .inl ⟨[src], rfl, rfl, rfl, List.isChain_singleton _, List.nodup_singleton _⟩
  · rw [if_neg hdst]
    refine search_spec hsrc huniv ⟨trivial, fun v => by simp, List.nodup_singleton _, by simp, ?_⟩
      (fun v hv hmem => absurd hv hmem) (by simp)
    simpa using Ne.symm hdst

omit [DecidableEq V] in
private theorem reflTransGen_of_isChain {R : V → V → Prop} {l : List V} {a b : V}
    (hchain : (a :: l).IsChain R) (hlast : (a :: l).getLast? = some b) : ReflTransGen R a b := by
  refine List.relationReflTransGen_of_exists_isChain_cons l hchain ?_
  rw [List.getLast?_eq_some_getLast (List.cons_ne_nil a l)] at hlast
  exact Option.some.inj hlast

omit [DecidableEq V] in
/-- What is on a chain can be reached from its first element and reaches its last. -/
theorem reflTransGen_of_mem {R : V → V → Prop} {path : List V} {a b v : V}
    (hhead : path.head? = some a) (hlast : path.getLast? = some b) (hchain : path.IsChain R)
    (hv : v ∈ path) : ReflTransGen R a v ∧ ReflTransGen R v b := by
  obtain ⟨front, back, rfl⟩ := List.append_of_mem hv
  rw [List.getLast?_append_of_ne_nil _ (List.cons_ne_nil _ _)] at hlast
  refine ⟨?_, reflTransGen_of_isChain (List.isChain_append.mp hchain).2.1 hlast⟩
  rw [List.append_cons] at hchain
  obtain ⟨hfront, -, -⟩ := List.isChain_append.mp hchain
  cases front with
  | nil =>
    obtain rfl := Option.some.inj hhead
    exact .refl
  | cons c front =>
    obtain rfl := Option.some.inj hhead
    have hlast : ((c :: front) ++ [v]).getLast? = some v := List.getLast?_concat
    exact reflTransGen_of_isChain hfront hlast

end Search

end Bao.Graph.BreadthFirst
