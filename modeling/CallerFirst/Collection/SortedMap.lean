/-!
# Maps kept in ascending order of their keys

A `SortedMap` is the list of its entries in ascending order of keys, each key once. Two maps with
the same entries are therefore equal.

Main definitions: `SortedMap.empty`, `SortedMap.get?`, `SortedMap.insert`, `SortedMap.update`, and
the views `SortedMap.entries` and `SortedMap.keys`. An update changes what is under its own key
(`SortedMap.get?_update_self`) and nothing else (`SortedMap.get?_update_of_ne`).
-/

namespace CallerFirst

variable {κ β γ : Type} [Ord κ]

/-- A finite map, listed in ascending order of keys. -/
structure SortedMap (κ β : Type) [Ord κ] where
  entries : List (κ × β)
  ascending : entries.Pairwise (fun a b => compare a.1 b.1 = .lt)

namespace SortedMap

/-- Computes the value under a key anew, from the present one if there is one. -/
def revise (key : κ) (f : Option β → β) : List (κ × β) → List (κ × β)
  | [] => [(key, f none)]
  | (k, v) :: rest =>
    match compare key k with
    | .lt => (key, f none) :: (k, v) :: rest
    | .eq => (k, f (some v)) :: rest
    | .gt => (k, v) :: revise key f rest

theorem key_of_mem_revise {key : κ} {f : Option β → β} {l : List (κ × β)} {e : κ × β}
    (h : e ∈ revise key f l) : e.1 = key ∨ e.1 ∈ l.map Prod.fst := by
  induction l with
  | nil => simp_all [revise]
  | cons d rest ih =>
    obtain ⟨k, v⟩ := d
    rw [revise] at h
    have hmem : e ∈ rest → e.1 ∈ rest.map Prod.fst := List.mem_map_of_mem
    split at h <;> simp only [List.mem_cons, List.map_cons] at h ⊢ <;> grind

theorem pairwise_revise [Std.TransOrd κ] (key : κ) (f : Option β → β) {l : List (κ × β)}
    (h : l.Pairwise (fun a b => compare a.1 b.1 = .lt)) :
    (revise key f l).Pairwise (fun a b => compare a.1 b.1 = .lt) := by
  induction l with
  | nil => simp [revise]
  | cons d rest ih =>
    obtain ⟨k, v⟩ := d
    obtain ⟨hd, hrest⟩ := List.pairwise_cons.1 h
    rw [revise]
    split
    · next hlt =>
      refine List.pairwise_cons.2 ⟨fun z hz => ?_, h⟩
      rcases List.mem_cons.1 hz with rfl | hz
      · exact hlt
      · exact Std.TransCmp.lt_trans hlt (hd z hz)
    · exact List.pairwise_cons.2 ⟨hd, hrest⟩
    · next hgt =>
      refine List.pairwise_cons.2 ⟨fun z hz => ?_, ih hrest⟩
      rcases key_of_mem_revise hz with hz | hz
      · rw [hz]
        exact Std.OrientedCmp.gt_iff_lt.1 hgt
      · obtain ⟨e, he, hk⟩ := List.mem_map.1 hz
        rw [← hk]
        exact hd e he

/-- The map without entries. -/
def empty : SortedMap κ β := ⟨[], .nil⟩

instance : Inhabited (SortedMap κ β) := ⟨empty⟩

instance [DecidableEq κ] [DecidableEq β] : DecidableEq (SortedMap κ β) := fun s t =>
  decidable_of_iff (s.entries = t.entries) (by cases s; cases t; simp)

/-- The value under a key. -/
def get? (m : SortedMap κ β) (key : κ) : Option β :=
  (m.entries.find? (fun e => compare e.1 key == .eq)).map (·.2)

@[simp]
theorem get?_empty (key : κ) : (empty : SortedMap κ β).get? key = none := rfl

theorem find?_revise_of_ne [Std.LawfulEqOrd κ] {key other : κ} {f : Option β → β}
    {l : List (κ × β)} (h : other ≠ key) :
    ((revise key f l).find? fun e => compare e.1 other == .eq).map (·.2)
      = (l.find? fun e => compare e.1 other == .eq).map (·.2) := by
  have hkey : (compare key other == .eq) = false := by
    simpa [Std.LawfulEqOrd.compare_eq_iff_eq] using Ne.symm h
  induction l with
  | nil => simp [revise, hkey]
  | cons d rest ih =>
    obtain ⟨k, v⟩ := d
    rw [revise]
    split
    · simp [hkey]
    · next heq =>
      have := Std.LawfulEqOrd.eq_of_compare heq
      subst this
      simp [hkey]
    · simp only [List.find?_cons]
      split <;> simp_all

theorem find?_revise_self [Std.TransOrd κ] [Std.LawfulEqOrd κ] {key : κ} {f : Option β → β}
    {l : List (κ × β)} (h : l.Pairwise (fun a b => compare a.1 b.1 = .lt)) :
    ((revise key f l).find? fun e => compare e.1 key == .eq).map (·.2)
      = some (f ((l.find? fun e => compare e.1 key == .eq).map (·.2))) := by
  induction l with
  | nil => simp [revise]
  | cons d rest ih =>
    obtain ⟨k, v⟩ := d
    obtain ⟨hd, hrest⟩ := List.pairwise_cons.1 h
    rw [revise]
    split
    · next hlt =>
      have hnone : ((k, v) :: rest).find? (fun e => compare e.1 key == .eq) = none := by
        refine List.find?_eq_none.2 fun e he => ?_
        have hgt : compare key e.1 = .lt := by
          rcases List.mem_cons.1 he with rfl | he
          · exact hlt
          · exact Std.TransCmp.lt_trans hlt (hd e he)
        simp [Std.OrientedCmp.gt_iff_lt.2 hgt]
      rw [hnone]
      simp
    · next heq =>
      have := Std.LawfulEqOrd.eq_of_compare heq
      subst this
      simp
    · next hgt =>
      have hne : (compare k key == .eq) = false := by
        simp [Std.OrientedCmp.gt_iff_lt.1 hgt]
      simp [hne, ih hrest]

/-- Whether there is a value under a key. -/
def contains (m : SortedMap κ β) (key : κ) : Bool := (m.get? key).isSome

/-- Whether there are no entries. -/
def isEmpty (m : SortedMap κ β) : Bool := m.entries.isEmpty

/-- The number of entries. -/
def size (m : SortedMap κ β) : Nat := m.entries.length

/-- The keys in ascending order. -/
def keys (m : SortedMap κ β) : List κ := m.entries.map (·.1)

/-- Applies a function to every value. -/
def mapValues (f : β → γ) (m : SortedMap κ β) : SortedMap κ γ :=
  ⟨m.entries.map fun e => (e.1, f e.2), List.pairwise_map.2 m.ascending⟩

variable [Std.TransOrd κ]

/-- Computes the value under a key anew, from the present one if there is one. -/
def update (m : SortedMap κ β) (key : κ) (f : Option β → β) : SortedMap κ β :=
  ⟨revise key f m.entries, pairwise_revise key f m.ascending⟩

/-- Sets the value under a key. -/
def insert (m : SortedMap κ β) (key : κ) (value : β) : SortedMap κ β := m.update key fun _ => value

/-- The map of a list of entries; of two entries with one key the later counts. -/
def ofList (l : List (κ × β)) : SortedMap κ β := l.foldl (fun m e => m.insert e.1 e.2) empty

/-! ### Looking up -/

@[simp]
theorem get?_update_self [Std.LawfulEqOrd κ] (m : SortedMap κ β) (key : κ) (f : Option β → β) :
    (m.update key f).get? key = some (f (m.get? key)) := find?_revise_self m.ascending

@[simp]
theorem get?_update_of_ne [Std.LawfulEqOrd κ] (m : SortedMap κ β) {key other : κ}
    (f : Option β → β) (h : other ≠ key) : (m.update key f).get? other = m.get? other :=
  find?_revise_of_ne h

end SortedMap

end CallerFirst
