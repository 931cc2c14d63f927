import Mathlib.Data.List.Sort
import Mathlib.Order.Defs.LinearOrder
import Osrm.Scan

/-!
`updater/csv_file_parser.hpp` and the lookup table of `updater/source.hpp`. The lines of all files, in whatever order
their tasks end, are sorted by key and file, descending, and for each key only the first one is kept.
-/
namespace Osrm.CsvFiles
open List

/-- `SpeedSource` and `PenaltySource`: what a line says, and the file it is from, in a byte. -/
structure Sourced (V : Type) where
  value : V
  source : ℕ
  deriving DecidableEq, Repr

variable {Key V : Type} [LinearOrder Key]

/-- `ParseCSVFile`, of the lines that the grammar has found. -/
def ParseCSVFile (lines : List (Key × V)) (file_id : ℕ) : List (Key × Sourced V) :=
  lines.map fun line => (line.1,⟨line.2,file_id % 256⟩)
def descending (lhs rhs : Key × Sourced V) : Bool :=
  decide (rhs.1 < lhs.1) || (!decide (lhs.1 < rhs.1) && decide (rhs.2.source < lhs.2.source))
/-- The loop of `std::unique` by key, with the element that was kept last. -/
def uniqueFrom (kept : Key × Sourced V) : List (Key × Sourced V) → List (Key × Sourced V)
  | [] => []
  | entry :: lookup => if kept.1 == entry.1 then uniqueFrom kept lookup else entry :: uniqueFrom entry lookup
def unique : List (Key × Sourced V) → List (Key × Sourced V)
  | [] => []
  | first :: lookup => first :: uniqueFrom first lookup

/-- The lookup of a key. In a table that is sorted `std::lower_bound` finds the first entry that is not greater. -/
def LookupTable (lookup : List (Key × Sourced V)) (key : Key) : Option (Sourced V) :=
  match lookup.find? fun entry => !decide (key < entry.1) with
  | some entry => if entry.1 < key then none else some entry.2
  | none => none

def flattened (start_index : ℕ) (order : List (List (Key × V) × ℕ)) : List (Key × Sourced V) :=
  order.flatMap fun file => ParseCSVFile file.1 (start_index + file.2)

/-- What `tbb::parallel_sort` can make of a vector; equal elements may be in any order. -/
structure Sorted (vector lookup : List (Key × Sourced V)) : Prop where
  perm : lookup.Perm vector
  ordered : lookup.Pairwise fun a b => descending b a = false

/-- The last line with a key in the file with the largest index that contains it. -/
def lastLine (start_index : ℕ) (csv_files : List (List (Key × V))) (key : Key) : Option (Sourced V) :=
  ((csv_files.zipIdx.filter fun file => file.1.any fun line => line.1 == key).getLast?).bind fun file =>
    ((ParseCSVFile file.1 (start_index + file.2)).filter fun entry => entry.1 == key).getLast?.map (·.2)
/-- No later file has a line with the key. Files are told apart by the byte that is stored. -/
def InLastFile (entries : List (Key × Sourced V)) (entry : Key × Sourced V) : Prop :=
  entry ∈ entries ∧ ∀ other ∈ entries, other.1 = entry.1 → other.2.source ≤ entry.2.source

/-! ### Looking up -/

section Lookup
variable {lookup entries : List (Key × Sourced V)} {entry : Key × Sourced V} {key : Key} {start_index : ℕ}
  {csv_files : List (List (Key × V))}

private theorem descending_false_iff {a b : Key × Sourced V} : descending b a = false ↔ b.1 < a.1 ∨ a.1 = b.1 ∧ b.2.source ≤ a.2.source := by
  simp only [descending,Bool.or_eq_false_iff,Bool.and_eq_false_imp,Bool.not_eq_true',decide_eq_false_iff_not,not_lt]
  constructor
  · rintro ⟨above,least⟩
    rcases above.lt_or_eq with less | same
    · exact .inl less
    · exact .inr ⟨same.symm,least same.ge⟩
  · rintro (less | ⟨same,least⟩)
    · exact ⟨less.le,fun above => absurd less (not_lt.mpr above)⟩
    · exact ⟨same.ge,fun _ => least⟩

private theorem find?_unique (p : Key → Bool) (lookup : List (Key × Sourced V)) :
    (unique lookup).find? (fun entry => p entry.1) = lookup.find? fun entry => p entry.1 := by
  have from_kept (kept : Key × Sourced V) (other : p kept.1 = false) (lookup : List (Key × Sourced V)) :
      (uniqueFrom kept lookup).find? (fun entry => p entry.1) = lookup.find? fun entry => p entry.1 := by
    induction lookup generalizing kept with
    | nil => rfl
    | cons entry lookup ih =>
      rw [uniqueFrom]
      split
      · rename_i same
        rw [ih kept other,find?_cons_of_neg]
        rw [← beq_iff_eq.mp same,other]
        exact Bool.false_ne_true
      · cases found : p entry.1 with
        | true => simp only [find?_cons,found]
        | false => rw [find?_cons_of_neg (by simp [found]),find?_cons_of_neg (by simp [found]),ih entry found]
  cases lookup with
  | nil => rfl
  | cons first lookup =>
    rw [unique]
    cases found : p first.1 with
    | true => simp only [find?_cons,found]
    | false => rw [find?_cons_of_neg (by simp [found]),find?_cons_of_neg (by simp [found]),from_kept first found]

private theorem LookupTable_unique (ordered : lookup.Pairwise fun a b => descending b a = false) (key : Key) :
    LookupTable (unique lookup) key = (lookup.find? fun entry => entry.1 == key).map (·.2) := by
  rw [LookupTable,find?_unique fun other => !decide (key < other)]
  induction lookup with
  | nil => rfl
  | cons entry lookup ih =>
    obtain ⟨above,rest⟩ := pairwise_cons.mp ordered
    rcases lt_trichotomy key entry.1 with less | rfl | greater
    · rw [find?_cons_of_neg (by simpa using less),find?_cons_of_neg (by simpa using less.ne')]
      exact ih rest
    · rw [find?_cons_of_pos (by simp),find?_cons_of_pos (by simp)]
      exact if_neg (lt_irrefl _)
    · have none : (entry :: lookup).find? (fun other => other.1 == key) = none := by
        refine find?_eq_none.mpr fun other member => ?_
        rcases mem_cons.mp member with rfl | later
        · simpa using greater.ne
        · rcases descending_false_iff.mp (above other later) with less | ⟨same,-⟩
          · simpa using (less.trans greater).ne
          · simpa [← same] using greater.ne
      rw [find?_cons_of_pos (by simpa using greater.le),none]
      exact if_pos greater

private theorem find?_inLastFile (sorted : Sorted entries lookup) (found : lookup.find? (fun entry => entry.1 == key) = some entry) :
    InLastFile entries entry ∧ entry.1 = key := by
  obtain ⟨here,before,after,split,none⟩ := find?_eq_some_iff_append.mp found
  have same : entry.1 = key := beq_iff_eq.mp here
  refine ⟨⟨sorted.perm.mem_iff.mp (split ▸ by simp),fun other member equal => ?_⟩,same⟩
  have inside := split ▸ sorted.perm.mem_iff.mpr member
  rcases mem_append.mp inside with front | back
  · have absent := none other front
    simp [equal,same] at absent
  rcases mem_cons.mp back with rfl | later
  · exact le_rfl
  · have ordered := split ▸ sorted.ordered
    have below := (pairwise_cons.mp (pairwise_append.mp ordered).2.1).1 other later
    rcases descending_false_iff.mp below with less | ⟨-,least⟩
    · exact absurd less (by rw [equal]; exact lt_irrefl _)
    · exact least

private theorem descending_trans (a b c : Key × Sourced V) (first : (!descending b a) = true) (second : (!descending c b) = true) :
    (!descending c a) = true := by
  rw [Bool.not_eq_true',descending_false_iff] at first second ⊢
  rcases first with less | ⟨same,least⟩ <;> rcases second with less' | ⟨same',least'⟩
  · exact .inl (less'.trans less)
  · exact .inl (same' ▸ less)
  · exact .inl (same ▸ less')
  · exact .inr ⟨same.trans same',least'.trans least⟩

private theorem descending_total (a b : Key × Sourced V) : ((!descending b a) || !descending a b) = true := by
  rw [Bool.or_eq_true,Bool.not_eq_true',Bool.not_eq_true',descending_false_iff,descending_false_iff]
  rcases lt_trichotomy a.1 b.1 with less | same | less
  · exact .inr (.inl less)
  · exact (le_total b.2.source a.2.source).imp (fun least => .inr ⟨same,least⟩) fun least => .inr ⟨same.symm,least⟩
  · exact .inl (.inl less)

private theorem exists_sorted (last : InLastFile entries entry) :
    ∃ lookup, Sorted entries lookup ∧ lookup.find? (fun other => other.1 == entry.1) = some entry := by
  obtain ⟨before,after,split⟩ := append_of_mem last.1
  -- a stable sort, when the entry is taken to the front
  have moved : entries.Perm (entry :: (before ++ after)) := split ▸ perm_middle
  have sorted : Sorted entries ((entry :: (before ++ after)).mergeSort fun a b => !descending b a) :=
    ⟨(mergeSort_perm _ _).trans moved.symm,
      (pairwise_mergeSort descending_trans descending_total _).imp fun le => by simpa using le⟩
  refine ⟨_,sorted,?_⟩
  have alike := Scan.filter_mergeSort descending_trans descending_total (entry :: (before ++ after))
    (fun other : Key × Sourced V => other.1 == entry.1 && other.2.source == entry.2.source) fun a b left right => by
      rw [Bool.and_eq_true,beq_iff_eq,beq_iff_eq] at left right
      rw [Bool.not_eq_true',descending_false_iff]
      exact .inr ⟨left.1.trans right.1.symm,(right.2.trans left.2.symm).le⟩
  generalize (entry :: (before ++ after)).mergeSort (fun a b => !descending b a) = lookup at sorted alike ⊢
  cases found : lookup.find? fun other => other.1 == entry.1 with
  | none => simpa using find?_eq_none.mp found entry (sorted.perm.mem_iff.mpr last.1)
  | some first =>
    obtain ⟨inFront,same⟩ := find?_inLastFile sorted found
    have source : first.2.source = entry.2.source :=
      le_antisymm (last.2 first inFront.1 same) (inFront.2 entry last.1 same.symm)
    have again : lookup.find? (fun other => other.1 == entry.1 && other.2.source == entry.2.source) = some first := by
      obtain ⟨-,front,back,split,none⟩ := find?_eq_some_iff_append.mp found
      refine find?_eq_some_iff_append.mpr ⟨by simp [same,source],front,back,split,fun other member => ?_⟩
      have absent := none other member
      rw [Bool.not_eq_true'] at absent ⊢
      rw [absent,Bool.false_and]
    rw [← head?_filter,alike,filter_cons_of_pos (by simp),head?_cons] at again
    exact again.symm

private theorem lastLine_none (absent : ∀ entry ∈ flattened start_index csv_files.zipIdx, entry.1 ≠ key) :
    lastLine start_index csv_files key = none := by
  have nowhere : (csv_files.zipIdx.filter fun file => file.1.any fun line => line.1 == key) = [] := by
    refine filter_eq_nil_iff.mpr fun file member some => ?_
    obtain ⟨line,inside,same⟩ := any_eq_true.mp some
    exact absent _ (mem_flatMap.mpr ⟨file,member,mem_map.mpr ⟨line,inside,rfl⟩⟩) (beq_iff_eq.mp same)
  rw [lastLine,nowhere]
  rfl

end Lookup

/-- Every key is looked up as the last of its lines exactly where all its lines in the last file with it say the same. -/
theorem last_line_wins_iff (start_index : ℕ) (csv_files : List (List (Key × V))) :
    (∀ order lookup, order.Perm csv_files.zipIdx → Sorted (flattened start_index order) lookup →
      ∀ key, LookupTable (unique lookup) key = lastLine start_index csv_files key) ↔
      ∀ entry, InLastFile (flattened start_index csv_files.zipIdx) entry → lastLine start_index csv_files entry.1 = some entry.2 := by
  constructor
  · intro all entry last
    obtain ⟨lookup,sorted,first⟩ := exists_sorted last
    have here := all csv_files.zipIdx lookup (Perm.refl _) sorted entry.1
    rw [LookupTable_unique sorted.ordered,first] at here
    exact here.symm
  · intro decided order lookup tasks sorted key
    have same : Sorted (flattened start_index csv_files.zipIdx) lookup :=
      ⟨sorted.perm.trans (tasks.flatMap_right _),sorted.ordered⟩
    rw [LookupTable_unique sorted.ordered]
    cases found : lookup.find? fun entry => entry.1 == key with
    | some entry =>
      obtain ⟨last,rfl⟩ := find?_inLastFile same found
      exact (decided entry last).symm
    | none =>
      refine (lastLine_none fun entry member => ?_).symm
      simpa using find?_eq_none.mp found entry (same.perm.mem_iff.mpr member)

/-- Two lines of one file with the same key, where the first one is kept, by a stable sort as well. -/
theorem first_line_kept : Sorted (flattened 1 ([[(7,10),(7,20)]] : List (List (ℕ × ℕ))).zipIdx) [(7,⟨10,1⟩),(7,⟨20,1⟩)] ∧
    LookupTable (unique [(7,⟨10,1⟩),(7,⟨20,1⟩)]) 7 = some (⟨10,1⟩ : Sourced ℕ) ∧
    lastLine 1 ([[(7,10),(7,20)]] : List (List (ℕ × ℕ))) 7 = some ⟨20,1⟩ :=
  ⟨⟨by decide,by decide⟩,rfl,rfl⟩

end Osrm.CsvFiles
