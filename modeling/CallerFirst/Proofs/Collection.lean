import CallerFirst.Collection.SortedMap
import CallerFirst.Collection.SortedSet
import Mathlib.Data.List.Nodup
import Mathlib.Tactic.Common

/-!
# Laws of sorted sets and maps

An ascending list has no repetitions, so the entries of a map and what is found under its keys are
the same thing (`SortedMap.mem_entries_iff`). An ascending list is also determined by its elements:
sets with the same elements and maps with the same values under their keys are equal
(`SortedSet.ext_mem`, `SortedMap.ext_get?`). So the map of a list without contradictions does not
depend on the order of the list (`SortedMap.ofList_congr`).
-/

namespace CallerFirst

namespace SortedSet

variable {α : Type} [Ord α] [Std.TransOrd α]

theorem nodup_toList (s : SortedSet α) : s.toList.Nodup := by
  refine s.ascending.imp fun hlt heq => ?_
  subst heq
  simp at hlt

theorem ext_mem {s t : SortedSet α} (h : ∀ x, x ∈ s ↔ x ∈ t) : s = t := by
  have hperm : s.toList.Perm t.toList :=
    (List.perm_ext_iff_of_nodup s.nodup_toList t.nodup_toList).2 h
  have hlist : s.toList = t.toList := by
    refine hperm.eq_of_pairwise (fun a b _ _ hab hba => ?_) s.ascending t.ascending
    exact (Std.OrientedCmp.not_lt_of_lt hab hba).elim
  cases s
  cases t
  cases hlist
  rfl

end SortedSet

namespace SortedMap

variable {κ β : Type} [Ord κ] [Std.TransOrd κ]

theorem nodup_keys (m : SortedMap κ β) : m.keys.Nodup := by
  refine List.pairwise_map.2 (m.ascending.imp fun hlt heq => ?_)
  rw [heq] at hlt
  simp at hlt

variable [Std.LawfulEqOrd κ]

theorem mem_entries_iff {m : SortedMap κ β} {key : κ} {value : β} :
    (key, value) ∈ m.entries ↔ m.get? key = some value := by
  constructor
  · intro hmem
    cases hfind : m.entries.find? fun e => compare e.1 key == .eq with
    | none => simpa using List.find?_eq_none.1 hfind _ hmem
    | some e =>
      have hkey : e.1 = key := by simpa using List.find?_some hfind
      have heq : e = (key, value) :=
        List.inj_on_of_nodup_map m.nodup_keys (List.mem_of_find?_eq_some hfind) hmem hkey
      rw [get?, hfind, heq]
      rfl
  · intro hget
    obtain ⟨e, hfind, rfl⟩ := Option.map_eq_some_iff.1 hget
    have hkey : e.1 = key := by simpa using List.find?_some hfind
    rw [← hkey]
    exact List.mem_of_find?_eq_some hfind

theorem mem_keys_iff {m : SortedMap κ β} {key : κ} : key ∈ m.keys ↔ (m.get? key).isSome := by
  rw [Option.isSome_iff_exists]
  constructor
  · intro h
    obtain ⟨e, he, rfl⟩ := List.mem_map.1 h
    exact ⟨e.2, mem_entries_iff.1 he⟩
  · rintro ⟨value, h⟩
    exact List.mem_map.2 ⟨(key, value), mem_entries_iff.2 h, rfl⟩

theorem ext_get? {m n : SortedMap κ β} (h : ∀ key, m.get? key = n.get? key) : m = n := by
  have hperm : m.entries.Perm n.entries := by
    refine (List.perm_ext_iff_of_nodup (.of_map _ m.nodup_keys) (.of_map _ n.nodup_keys)).2 ?_
    rintro ⟨key, value⟩
    rw [mem_entries_iff, mem_entries_iff, h]
  have hentries : m.entries = n.entries := by
    refine hperm.eq_of_pairwise (fun a b _ _ hab hba => ?_) m.ascending n.ascending
    exact (Std.OrientedCmp.not_lt_of_lt hab hba).elim
  cases m
  cases n
  cases hentries
  rfl

/-- Two maps are equal when the same things are seen under each key, as long as something is seen in
each value, and what is seen in a value determines it. -/
theorem ext_of_seen {γ : Type} {m n : SortedMap κ β} {Seen : β → γ → Prop}
    (hm : ∀ key a, m.get? key = some a → ∃ x, Seen a x)
    (hn : ∀ key b, n.get? key = some b → ∃ x, Seen b x)
    (hsame : ∀ key a b, m.get? key = some a → n.get? key = some b → (∀ x, Seen a x ↔ Seen b x) →
      a = b)
    (h : ∀ key x, (∃ a, m.get? key = some a ∧ Seen a x) ↔ ∃ b, n.get? key = some b ∧ Seen b x) :
    m = n := by
  refine ext_get? fun key => ?_
  cases ha : m.get? key with
  | none =>
    cases hb : n.get? key with
    | none => rfl
    | some b =>
      obtain ⟨x, hx⟩ := hn key b hb
      obtain ⟨a, ha', -⟩ := (h key x).2 ⟨b, hb, hx⟩
      rw [ha] at ha'
      cases ha'
  | some a =>
    obtain ⟨x, hx⟩ := hm key a ha
    obtain ⟨b, hb, -⟩ := (h key x).1 ⟨a, ha, hx⟩
    have heq : a = b := hsame key a b ha hb fun y => by simpa [ha, hb] using h key y
    rw [hb, heq]

variable [DecidableEq κ]

theorem get?_update (m : SortedMap κ β) (key other : κ) (f : Option β → β) :
    (m.update key f).get? other = if other = key then some (f (m.get? key)) else m.get? other := by
  split
  · next h => rw [h, get?_update_self]
  · next h => rw [get?_update_of_ne m f h]

theorem get?_insert (m : SortedMap κ β) (key other : κ) (value : β) :
    (m.insert key value).get? other = if other = key then some value else m.get? other :=
  get?_update m key other _

/-- Of the entries of a list, the last one with a key counts. -/
theorem get?_foldl_insert (l : List (κ × β)) (m : SortedMap κ β) (key : κ) :
    (l.foldl (fun m e => m.insert e.1 e.2) m).get? key
      = ((l.reverse.find? fun e => e.1 = key).map (·.2)).or (m.get? key) := by
  induction l generalizing m with
  | nil => rfl
  | cons e l ih =>
    rw [List.foldl_cons, ih, get?_insert, List.reverse_cons, List.find?_append]
    cases l.reverse.find? fun e => e.1 = key with
    | some d => rfl
    | none =>
      by_cases h : e.1 = key
      · simp [h]
      · simp [h, Ne.symm h]

theorem get?_ofList (l : List (κ × β)) (key : κ) :
    (ofList l).get? key = (l.reverse.find? fun e => e.1 = key).map (·.2) := by
  rw [ofList, get?_foldl_insert, get?_empty, Option.or_none]

theorem isSome_get?_ofList {l : List (κ × β)} {key : κ} :
    ((ofList l).get? key).isSome ↔ key ∈ l.map Prod.fst := by
  rw [get?_ofList, Option.isSome_map, List.find?_isSome, List.mem_map]
  simp only [List.mem_reverse, decide_eq_true_eq]

theorem mem_of_get?_ofList {l : List (κ × β)} {key : κ} {value : β}
    (h : (ofList l).get? key = some value) : (key, value) ∈ l := by
  rw [get?_ofList] at h
  obtain ⟨e, hfind, rfl⟩ := Option.map_eq_some_iff.1 h
  have hkey : e.1 = key := by simpa using List.find?_some hfind
  rw [← hkey]
  exact List.mem_reverse.1 (List.mem_of_find?_eq_some hfind)

/-- When no two entries of a list differ under one key, what is under a key is what the list has
there. -/
theorem get?_ofList_eq_some_iff_of_agree {l : List (κ × β)}
    (h : ∀ d ∈ l, ∀ e ∈ l, d.1 = e.1 → d = e) {key : κ} {value : β} :
    (ofList l).get? key = some value ↔ (key, value) ∈ l := by
  constructor
  · exact mem_of_get?_ofList
  · intro hmem
    rw [get?_ofList]
    cases hfind : l.reverse.find? fun e => e.1 = key with
    | none => simpa using List.find?_eq_none.1 hfind _ (List.mem_reverse.2 hmem)
    | some e =>
      have hkey : e.1 = key := by simpa using List.find?_some hfind
      have he : e ∈ l := List.mem_reverse.1 (List.mem_of_find?_eq_some hfind)
      rw [h e he _ hmem hkey]
      rfl

/-- When each key of a list is there once, what is under a key is what the list has there. -/
theorem get?_ofList_eq_some_iff {l : List (κ × β)} (h : (l.map Prod.fst).Nodup) {key : κ}
    {value : β} : (ofList l).get? key = some value ↔ (key, value) ∈ l :=
  get?_ofList_eq_some_iff_of_agree fun _ hd _ he => List.inj_on_of_nodup_map h hd he

/-- A map is the map of its entries. -/
theorem ofList_entries (m : SortedMap κ β) : ofList m.entries = m := by
  refine ext_get? fun key => Option.ext fun value => ?_
  rw [get?_ofList_eq_some_iff m.nodup_keys, mem_entries_iff]

/-- When no two entries of a list differ under one key, only the set of the entries matters. -/
theorem ofList_congr {l l' : List (κ × β)} (h : ∀ d ∈ l, ∀ e ∈ l, d.1 = e.1 → d = e)
    (hmem : ∀ e, e ∈ l ↔ e ∈ l') : ofList l = ofList l' := by
  have h' : ∀ d ∈ l', ∀ e ∈ l', d.1 = e.1 → d = e := fun d hd e he =>
    h d ((hmem d).2 hd) e ((hmem e).2 he)
  refine ext_get? fun key => Option.ext fun value => ?_
  rw [get?_ofList_eq_some_iff_of_agree h, get?_ofList_eq_some_iff_of_agree h', hmem]

end SortedMap

end CallerFirst
