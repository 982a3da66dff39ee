import Formula.Table
import Formula.Proofs.Text.Bytes

/-!
# Sorted tables

The view of a table decides its sorted listing: every name with a value stands in it once,
with that value, and after the names with lesser bytes. Sorting the names from any other
order gives the names of the same listing.
-/

namespace Formula

namespace Table

variable {α : Type} {name : String} {value : α}

theorem mem_of_lookup {entries : List (String × α)} (h : entries.lookup name = some value) :
    (name, value) ∈ entries := by
  obtain ⟨before, after, rfl, -⟩ := List.lookup_eq_some_iff.1 h
  exact List.mem_append_right _ List.mem_cons_self

/-- No other entry of the name stands before an entry of distinct names. -/
theorem lookup_of_mem {entries : List (String × α)} (hdistinct : (entries.map Prod.fst).Nodup)
    (h : (name, value) ∈ entries) : entries.lookup name = some value := by
  obtain ⟨before, after, rfl⟩ := List.append_of_mem h
  refine List.lookup_eq_some_iff.2 ⟨before, after, rfl, fun entry hentry => ?_⟩
  rw [List.map_append, List.map_cons, List.nodup_middle, List.nodup_cons] at hdistinct
  have hname : entry.1 ∈ before.map Prod.fst := List.mem_map_of_mem hentry
  refine bne_iff_ne.2 fun heq => hdistinct.1 ?_
  rw [heq]
  exact List.mem_append_left _ hname

theorem mem_sorted_iff (table : Table α) (name : String) (value : α) :
    (name, value) ∈ table.sorted ↔ table.get? name = some value := by
  rw [sorted, List.mem_mergeSort]
  exact ⟨lookup_of_mem table.distinct, mem_of_lookup⟩

theorem mem_names_sorted_iff (table : Table α) (name : String) :
    name ∈ table.sorted.map Prod.fst ↔ (table.get? name).isSome = true := by
  rw [Option.isSome_iff_exists]
  constructor
  · intro h
    obtain ⟨⟨first, value⟩, hmem, rfl⟩ := List.mem_map.1 h
    exact ⟨value, (mem_sorted_iff table first value).1 hmem⟩
  · rintro ⟨value, h⟩
    exact List.mem_map_of_mem ((mem_sorted_iff table name value).2 h)

theorem nodup_names_sorted (table : Table α) : (table.sorted.map Prod.fst).Nodup :=
  ((List.mergeSort_perm table.entries _).map Prod.fst).nodup_iff.2 table.distinct

theorem pairwise_sorted (table : Table α) :
    table.sorted.Pairwise fun first second => first.1 < second.1 := by
  have hle : table.sorted.Pairwise fun first second => decide (first.1 ≤ second.1) = true := by
    refine List.pairwise_mergeSort (fun first second third => ?_) (fun first second => ?_) _
    · simpa only [decide_eq_true_eq] using le_trans
    · simpa using le_total first.1 second.1
  have hne : table.sorted.Pairwise fun first second => first.1 ≠ second.1 :=
    List.pairwise_map.1 table.nodup_names_sorted
  refine (hle.and hne).imp fun h => ?_
  exact lt_of_le_of_ne (of_decide_eq_true h.1) h.2

/-- Tables with the same view are listed in the same way. -/
theorem sorted_congr {table other : Table α} (h : ∀ name, table.get? name = other.get? name) :
    table.sorted = other.sorted := by
  have hnodup : ∀ table : Table α, table.sorted.Nodup := fun table =>
    table.nodup_names_sorted.of_map
  have hmem : ∀ entry, entry ∈ table.sorted ↔ entry ∈ other.sorted := by
    rintro ⟨name, value⟩
    rw [mem_sorted_iff, mem_sorted_iff, h]
  refine List.Perm.eq_of_pairwise (fun first second _ _ hlt hgt => ?_) table.pairwise_sorted
    other.pairwise_sorted ((List.perm_ext_iff_of_nodup (hnodup table) (hnodup other)).2 hmem)
  exact absurd hgt hlt.asymm

/-- The names of a table, sorted by their bytes from any order, are those of its listing. -/
theorem mergeSort_names (table : Table α) {names : List String} (hnodup : names.Nodup)
    (hmem : ∀ name, name ∈ names ↔ (table.get? name).isSome = true) :
    (names.mergeSort fun first second => Text.bytes first ≤ Text.bytes second) =
      table.sorted.map Prod.fst := by
  have hperm : (names.mergeSort fun first second => Text.bytes first ≤ Text.bytes second).Perm
      (table.sorted.map Prod.fst) := by
    refine (List.mergeSort_perm names _).trans ?_
    refine (List.perm_ext_iff_of_nodup hnodup table.nodup_names_sorted).2 fun name => ?_
    rw [hmem, mem_names_sorted_iff]
  have hbytes : (names.mergeSort fun first second => Text.bytes first ≤ Text.bytes second).Pairwise
      fun first second => decide (Text.bytes first ≤ Text.bytes second) = true := by
    refine List.pairwise_mergeSort (fun first second third => ?_) (fun first second => ?_) _
    · simpa only [decide_eq_true_eq] using le_trans
    · simpa using le_total (Text.bytes first) (Text.bytes second)
  have hnames := hbytes.imp fun h => (Text.bytes_le_iff _ _).1 (of_decide_eq_true h)
  have hlisting : (table.sorted.map Prod.fst).Pairwise (· ≤ ·) :=
    List.pairwise_map.2 (table.pairwise_sorted.imp le_of_lt)
  exact hperm.eq_of_pairwise (fun _ _ _ _ => le_antisymm) hnames hlisting

end Table

end Formula
