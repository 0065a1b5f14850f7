/-!
# Sets kept in ascending order

A `SortedSet` is the ascending list of its elements. Two sets with the same elements are therefore
equal, and listing a set needs no sorting.

Main definitions: `SortedSet.empty`, `SortedSet.insert`, `SortedSet.ofList`, `SortedSet.union`, and
the view `SortedSet.toList`. Each of them is described by what its members are, as in
`SortedSet.mem_insert`.
-/

namespace CallerFirst

variable {α : Type} [Ord α]

/-- A finite set, listed in ascending order. -/
structure SortedSet (α : Type) [Ord α] where
  toList : List α
  ascending : toList.Pairwise (fun a b => compare a b = .lt)

namespace SortedSet

/-- Puts an element at its place in an ascending list that lacks it. -/
def place (x : α) : List α → List α
  | [] => [x]
  | y :: rest =>
    match compare x y with
    | .lt => x :: y :: rest
    | .eq => y :: rest
    | .gt => y :: place x rest

theorem mem_or_eq_of_mem_place {x y : α} {l : List α} (h : y ∈ place x l) : y = x ∨ y ∈ l := by
  induction l with
  | nil => simpa [place] using h
  | cons z rest ih =>
    rw [place] at h
    split at h <;> simp only [List.mem_cons] at h ⊢ <;> grind

theorem pairwise_place [Std.TransOrd α] (x : α) {l : List α}
    (h : l.Pairwise (fun a b => compare a b = .lt)) :
    (place x l).Pairwise (fun a b => compare a b = .lt) := by
  induction l with
  | nil => simp [place]
  | cons y rest ih =>
    obtain ⟨hy, hrest⟩ := List.pairwise_cons.1 h
    rw [place]
    split
    · next hlt =>
      refine List.pairwise_cons.2 ⟨fun z hz => ?_, h⟩
      rcases List.mem_cons.1 hz with rfl | hz
      · exact hlt
      · exact Std.TransCmp.lt_trans hlt (hy z hz)
    · exact h
    · next hgt =>
      refine List.pairwise_cons.2 ⟨fun z hz => ?_, ih hrest⟩
      rcases mem_or_eq_of_mem_place hz with rfl | hz
      · exact Std.OrientedCmp.gt_iff_lt.1 hgt
      · exact hy z hz

/-- The set without elements. -/
def empty : SortedSet α := ⟨[], .nil⟩

instance : Inhabited (SortedSet α) := ⟨empty⟩

instance [DecidableEq α] : DecidableEq (SortedSet α) := fun s t =>
  decidable_of_iff (s.toList = t.toList) (by cases s; cases t; simp)

instance : Membership α (SortedSet α) := ⟨fun s x => x ∈ s.toList⟩

instance [DecidableEq α] (x : α) (s : SortedSet α) : Decidable (x ∈ s) :=
  inferInstanceAs (Decidable (x ∈ s.toList))

/-- Whether there are no elements. -/
def isEmpty (s : SortedSet α) : Bool := s.toList.isEmpty

/-- The number of elements. -/
def size (s : SortedSet α) : Nat := s.toList.length

theorem mem_def {x : α} {s : SortedSet α} : x ∈ s ↔ x ∈ s.toList := Iff.rfl

@[simp]
theorem not_mem_empty (x : α) : x ∉ (empty : SortedSet α) := List.not_mem_nil

theorem mem_place [Std.LawfulEqOrd α] {x y : α} {l : List α} :
    y ∈ place x l ↔ y = x ∨ y ∈ l := by
  refine ⟨mem_or_eq_of_mem_place, fun h => ?_⟩
  induction l with
  | nil => simpa [place] using h
  | cons z rest ih =>
    rw [place]
    split
    · simpa using h
    · next heq =>
      have := Std.LawfulEqOrd.eq_of_compare heq
      simp_all
    · simp only [List.mem_cons] at h ⊢
      grind

variable [Std.TransOrd α]

/-- Adds an element. -/
def insert (s : SortedSet α) (x : α) : SortedSet α :=
  ⟨place x s.toList, pairwise_place x s.ascending⟩

/-- The set of the elements of a list. -/
def ofList (l : List α) : SortedSet α := l.foldl insert empty

/-- Adds every element of another set. -/
def union (s t : SortedSet α) : SortedSet α := t.toList.foldl insert s

/-! ### Membership -/

@[simp]
theorem mem_insert [Std.LawfulEqOrd α] {s : SortedSet α} {x y : α} :
    y ∈ s.insert x ↔ y = x ∨ y ∈ s := mem_place

theorem mem_foldl_insert [Std.LawfulEqOrd α] {l : List α} {s : SortedSet α} {y : α} :
    y ∈ l.foldl insert s ↔ y ∈ l ∨ y ∈ s := by
  induction l generalizing s with
  | nil => simp
  | cons x rest ih =>
    rw [List.foldl_cons, ih]
    simp only [mem_insert, List.mem_cons]
    grind

@[simp]
theorem mem_ofList [Std.LawfulEqOrd α] {l : List α} {y : α} : y ∈ ofList l ↔ y ∈ l := by
  simp [ofList, mem_foldl_insert]

@[simp]
theorem mem_union [Std.LawfulEqOrd α] {s t : SortedSet α} {y : α} :
    y ∈ s.union t ↔ y ∈ s ∨ y ∈ t := by
  rw [union, mem_foldl_insert, ← mem_def, or_comm]

end SortedSet

end CallerFirst
