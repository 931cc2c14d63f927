import Mathlib.Tactic

/-!
Trees packed level by level. The nodes of a level are the merged blocks of the level below, all blocks full but the
last one; the levels stand one after another in one array, and the children of a node are found by counting. What
lies below the nodes of a level is every object once and in order.
-/
namespace Osrm.Packing
open List Option
universe u v
variable {α : Type u} {β : Type v} {size : ℕ}

/-- The `j`-th block of a list. -/
def block (size : ℕ) (l : List α) (j : ℕ) : List α := (l.drop (j * size)).take size
def blockCount (size n : ℕ) : ℕ := (n + size - 1) / size

theorem block_length_le (l : List α) (j : ℕ) : (block size l j).length ≤ size := by
  unfold block
  exact length_take_le _ _

theorem block_map (f : α → β) (l : List α) (j : ℕ) : block size (l.map f) j = (block size l j).map f := by
  unfold block
  rw [← map_drop,← map_take]

theorem block_range (n j : ℕ) : block size (List.range n) j = List.range' (j * size) (min size (n - j * size)) := by
  apply ext_getElem?
  intro i
  simp only [block,getElem?_take,getElem?_drop]
  grind

theorem mem_of_mem_block {l : List α} {j : ℕ} {a : α} (member : a ∈ block size l j) : a ∈ l :=
  mem_of_mem_drop (mem_of_mem_take member)

private theorem map_getD_range (l : List α) (a : α) : (List.range l.length).map (fun i => l.getD i a) = l := by
  refine ext_getElem? fun i => ?_
  grind

theorem filterMap_get (l : List α) {indices : List ℕ} (inside : ∀ index ∈ indices, index < l.length) (i : ℕ) :
    (indices.filterMap fun index => l[index]?)[i]? = indices[i]?.bind fun index => l[index]? := by
  induction indices generalizing i with
  | nil => simp
  | cons index rest ih =>
    have found : l[index]? = some (l.get ⟨index,inside index (by simp)⟩) := by simp
    rw [filterMap_cons_some found]
    cases i with
    | zero => simp
    | succ i =>
      rw [getElem?_cons_succ,getElem?_cons_succ]
      exact ih (fun other member => inside other (mem_cons_of_mem _ member)) i

/-- Indices find the elements of a list. -/
theorem filterMap_range (l : List α) : (List.range l.length).filterMap (fun index => l[index]?) = l := by
  apply ext_getElem?
  intro i
  rw [filterMap_get l (by simp) i]
  rcases Nat.lt_or_ge i l.length with inside | outside
  · rw [getElem?_range inside,bind_some]
  · rw [getElem?_eq_none (by simpa using outside),getElem?_eq_none outside,bind_none]

private theorem mem_block_of_get {l : List α} {j k : ℕ} {a : α} (position : k ∈ block size (List.range l.length) j)
    (at_k : l[k]? = some a) : a ∈ block size l j := by
  rw [← map_getD_range l a,block_map]
  exact mem_map.mpr ⟨k,position,by rw [getD_eq_getElem?_getD,at_k,getD_some]⟩

private theorem flatMap_block_take (l : List α) (k : ℕ) : (List.range k).flatMap (block size l) = l.take (k * size) := by
  induction k with
  | zero => simp
  | succ k ih => rw [range_succ,flatMap_append,ih,Nat.succ_mul,take_add,flatMap_singleton,block]

theorem le_blockCount_mul (positive : 0 < size) (n : ℕ) : n ≤ blockCount size n * size := by
  have split := Nat.div_add_mod (n + size - 1) size
  have below := Nat.mod_lt (n + size - 1) positive
  rw [Nat.mul_comm] at split
  unfold blockCount
  omega

private theorem flatMap_block (positive : 0 < size) (l : List α) :
    (List.range (blockCount size l.length)).flatMap (block size l) = l := by
  rw [flatMap_block_take]
  exact take_of_length_le (le_blockCount_mul positive l.length)

theorem blockCount_lt (two : 2 ≤ size) {n : ℕ} (many : 1 < n) : blockCount size n < n := by
  refine (Nat.div_lt_iff_lt_mul (by omega)).mpr ?_
  obtain ⟨k,rfl⟩ : ∃ k, n = k + 2 := ⟨n - 2,by omega⟩
  obtain ⟨m,rfl⟩ : ∃ m, size = m + 2 := ⟨size - 2,by omega⟩
  rw [show (k + 2) * (m + 2) = k * m + 2 * k + 2 * m + 4 by ring]
  omega

def parents (merge : List α → β) (size : ℕ) (level : List α) : List β :=
  (List.range (blockCount size level.length)).map fun j => merge (block size level j)

@[simp]
theorem parents_length (merge : List α → β) (level : List α) : (parents merge size level).length = blockCount size level.length := by
  simp [parents]

variable {level : List α}

private theorem parents_get {merge : List α → β} {j : ℕ} {node : β}
    (found : (parents merge size level)[j]? = some node) : node = merge (block size level j) := by
  unfold parents at found
  rw [getElem?_map,map_eq_some_iff] at found
  obtain ⟨k,at_j,rfl⟩ := found
  obtain ⟨_,rfl⟩ := List.getElem?_eq_some_iff.mp at_j
  rw [getElem_range]

def starts (sizes : List ℕ) : List ℕ := sizes.scanl (· + ·) 0

theorem starts_length (sizes : List ℕ) : (starts sizes).length = sizes.length + 1 := length_scanl
theorem starts_get (sizes : List ℕ) {i : ℕ} (within : i ≤ sizes.length) : (starts sizes)[i]? = some (sizes.take i).sum := by
  rw [starts,getElem?_scanl,if_pos within,sum_eq_foldl]

theorem starts_snoc (sizes : List ℕ) (size : ℕ) : starts (sizes ++ [size]) = starts sizes ++ [sizes.sum + size] := by
  unfold starts
  rw [scanl_append,← sum_eq_foldl]
  simp

theorem flatten_get (levels : List (List α)) {i : ℕ} (at_i : levels[i]? = some level) {k : ℕ}
    (within : k < level.length) : levels.flatten[((levels.map List.length).take i).sum + k]? = level[k]? := by
  induction levels generalizing i with
  | nil => simp at at_i
  | cons first rest ih =>
    cases i with
    | zero =>
      obtain rfl : first = level := by simpa using at_i
      simp [getElem?_append_left within]
    | succ i =>
      have step := ih (by simpa using at_i)
      simp only [map_cons,take_succ_cons,sum_cons,flatten_cons]
      rw [getElem?_append_right (by omega),← step]
      congr 1
      omega

theorem flatten_slice (levels : List (List α)) {i : ℕ} (at_i : levels[i]? = some level) :
    (levels.flatten.drop ((levels.map List.length).take i).sum).take level.length = level := by
  induction levels generalizing i with
  | nil => simp at at_i
  | cons first rest ih =>
    cases i with
    | zero =>
      obtain rfl : first = level := by simpa using at_i
      simp
    | succ i =>
      have step := ih (by simpa using at_i)
      simp only [map_cons,take_succ_cons,sum_cons,flatten_cons]
      rwa [← drop_drop,drop_left]

def reverseRange (l : List α) (start size : ℕ) : List α :=
  l.take start ++ ((l.drop start).take size).reverse ++ l.drop (start + size)

private theorem reverseRange_middle (before middle after : List α) :
    reverseRange (before ++ middle ++ after) before.length middle.length = before ++ middle.reverse ++ after := by
  unfold reverseRange
  have after_both : (before ++ middle ++ after).drop (before.length + middle.length) = after := by
    rw [← length_append,drop_left]
  rw [after_both,append_assoc before,take_left,drop_left,take_left]

theorem reverseRange_levels (levels : List (List α)) :
    (List.range levels.length).foldl (fun l i => reverseRange l ((starts (levels.map List.length)).getD i 0)
      ((levels.map List.length).getD i 0)) levels.flatten = (levels.map List.reverse).flatten := by
  suffices upto : ∀ k ≤ levels.length, (List.range k).foldl (fun l i => reverseRange l
      ((starts (levels.map List.length)).getD i 0) ((levels.map List.length).getD i 0)) levels.flatten =
      ((levels.take k).map List.reverse).flatten ++ (levels.drop k).flatten by
    simpa using upto levels.length le_rfl
  intro k
  induction k with
  | zero => simp
  | succ k ih =>
    intro more
    -- the levels before this one keep their lengths, so its position is still the sum of the sizes before it
    have position : (starts (levels.map List.length)).getD k 0 = ((levels.take k).map List.reverse).flatten.length := by
      rw [getD_eq_getElem?_getD,starts_get _ (by rw [length_map]; omega),getD_some,length_flatten,
        List.map_map,← map_take]
      congr 2
      funext l
      simp
    have extent : (levels.map List.length).getD k 0 = (levels[k]).length := by
      rw [getD_eq_getElem?_getD]
      simp [show k < levels.length by omega]
    rw [range_succ,foldl_append,ih (by omega),foldl_cons,foldl_nil,position,extent,
      drop_eq_getElem_cons (by omega),flatten_cons,← append_assoc,reverseRange_middle]
    rw [take_succ_eq_append_getElem (by omega),map_append,flatten_append]
    simp

def width (leaf branching objects : ℕ) : ℕ → ℕ
  | 0 => blockCount leaf objects
  | height + 1 => blockCount branching (width leaf branching objects height)
def below (leaf branching objects : ℕ) : ℕ → ℕ → List ℕ
  | 0, j => block leaf (List.range objects) j
  | height + 1, j => (block branching (List.range (width leaf branching objects height)) j).flatMap
      (below leaf branching objects height)

variable {leaf branching objects : ℕ}

theorem below_lt {height j i : ℕ} (lies : i ∈ below leaf branching objects height j) : i < objects := by
  induction height generalizing j with
  | zero => exact mem_range.mp (mem_of_mem_block lies)
  | succ height ih =>
    obtain ⟨k,_,lies_below⟩ := mem_flatMap.mp lies
    exact ih lies_below

theorem flatMap_below (leaf_pos : 0 < leaf) (branching_pos : 0 < branching) (height : ℕ) :
    (List.range (width leaf branching objects height)).flatMap (below leaf branching objects height) = List.range objects := by
  induction height with
  | zero =>
    have parts := flatMap_block leaf_pos (List.range objects)
    rw [length_range] at parts
    exact parts
  | succ height ih =>
    have parts := flatMap_block branching_pos (List.range (width leaf branching objects height))
    rw [length_range] at parts
    have grouped : (List.range (width leaf branching objects (height + 1))).flatMap (below leaf branching objects (height + 1)) =
        ((List.range (width leaf branching objects (height + 1))).flatMap
          (block branching (List.range (width leaf branching objects height)))).flatMap (below leaf branching objects height) := by
      rw [flatMap_assoc]
      rfl
    rw [grouped,width,parts,ih]

def work (leaf branching : ℕ) : ℕ → ℕ
  | 0 => leaf + 1
  | height + 1 => branching * work leaf branching height + 1

theorem sum_work_lt {γ : Type*} {children : List γ} {height : ℕ} (few : children.length ≤ branching) (cost : γ → ℕ)
    (costs : ∀ child ∈ children, cost child = work leaf branching height) :
    (children.map cost).sum < work leaf branching (height + 1) := by
  have each : children.map cost = replicate children.length (work leaf branching height) := by
    rw [eq_replicate_iff]
    refine ⟨by simp,fun c member => ?_⟩
    obtain ⟨child,inside,rfl⟩ := mem_map.mp member
    exact costs child inside
  have : children.length * work leaf branching height ≤ branching * work leaf branching height := Nat.mul_le_mul_right _ few
  rw [each,sum_replicate,smul_eq_mul,work]
  omega

/-- Levels that are packed over the boxes of the objects, the lowest one first. -/
structure IsPacked (merge : List β → β) (leaf branching : ℕ) (boxes : List β) (levels : List (List β)) : Prop where
  lowest : levels[0]? = some (parents merge leaf boxes)
  above : ∀ height upper, levels[height + 1]? = some upper →
    ∃ lower, levels[height]? = some lower ∧ upper = parents merge branching lower

variable {merge : List β → β} {boxes : List β} {levels : List (List β)}

theorem IsPacked.single : IsPacked merge leaf branching boxes [parents merge leaf boxes] :=
  ⟨rfl,fun height upper found => by simp at found⟩

theorem IsPacked.push (packed : IsPacked merge leaf branching boxes levels) {last : List β} (top : levels.getLast? = some last) :
    IsPacked merge leaf branching boxes (levels ++ [parents merge branching last]) := by
  constructor
  · exact (getElem?_append_left (List.getElem?_eq_some_iff.mp packed.lowest).choose).trans packed.lowest
  · intro height upper found
    rcases Nat.lt_or_ge (height + 1) levels.length with inside | new
    · rw [getElem?_append_left inside] at found
      obtain ⟨lower,at_height,rfl⟩ := packed.above height upper found
      exact ⟨lower,(getElem?_append_left (by omega)).trans at_height,rfl⟩
    · rw [getElem?_append_right new,getElem?_singleton] at found
      have exactly : height + 1 = levels.length := by
        by_contra other
        rw [if_neg (by omega)] at found
        simp at found
      rw [if_pos (by omega),some_inj] at found
      refine ⟨last,?_,found.symm⟩
      rw [getElem?_append_left (by omega),← top,getLast?_eq_getElem?]
      congr 1
      omega

theorem IsPacked.length (packed : IsPacked merge leaf branching boxes levels) {height : ℕ} {level : List β}
    (found : levels[height]? = some level) : level.length = width leaf branching boxes.length height := by
  induction height generalizing level with
  | zero =>
    rw [packed.lowest,some_inj] at found
    rw [← found,parents_length,width]
  | succ height ih =>
    obtain ⟨lower,at_height,rfl⟩ := packed.above height level found
    rw [parents_length,ih at_height,width]

theorem IsPacked.bounds (packed : IsPacked merge leaf branching boxes levels) (within : β → β → Prop)
    (trans : ∀ a b c, within a b → within b c → within a c) (merged : ∀ l, ∀ b ∈ l, within b (merge l))
    {height j : ℕ} {level : List β} {node : β} (found : levels[height]? = some level) (at_j : level[j]? = some node) {i : ℕ}
    (lies : i ∈ below leaf branching boxes.length height j) {box : β} (at_i : boxes[i]? = some box) : within box node := by
  induction height generalizing level node j with
  | zero =>
    rw [packed.lowest,some_inj] at found
    subst found
    rw [parents_get at_j]
    exact merged _ box (mem_block_of_get lies at_i)
  | succ height ih =>
    obtain ⟨lower,at_height,rfl⟩ := packed.above height level found
    obtain ⟨k,child,lies_below⟩ := mem_flatMap.mp lies
    rw [← packed.length at_height] at child
    have at_k : lower[k]? = some (lower.get ⟨k,mem_range.mp (mem_of_mem_block child)⟩) := by simp
    have first := ih at_height at_k lies_below
    refine trans _ _ _ first ?_
    rw [parents_get at_j]
    exact merged _ _ (mem_block_of_get child at_k)

end Osrm.Packing
