import Osrm.Slices
import Osrm.Loops
import Osrm.PartitionBuild

/-!
`partitioner::bisectionToPartition`. A cell is a range of a permutation of the nodes; one that is too large is split
at the highest bit of their bisection ids that is left. Each level is made from the cells of the one above it.
-/
namespace Osrm.BisectionPartition
open List Option
open Typedefs Osrm.Partition Slices Loops

abbrev BisectionID := BitVec 32

def NUM_BISECTION_BITS : ℕ := 32
def INVALID_CELL_ID : CellID := 2 ^ 32 - 1

/-- `std::partition`: the elements that satisfy the predicate come first, both parts in any order. -/
structure StdPartition where
  run : (NodeID → Bool) → List NodeID → List NodeID
  perm : ∀ p l, (run p l).Perm l
  parts : ∀ p l, ∃ front back, run p l = front ++ back ∧ (∀ a ∈ front, p a = true) ∧ ∀ a ∈ back, p a = false

structure CellBisection where
  cell_begin : ℕ
  cell_end : ℕ
  bit : ℕ
  tabu : Bool

/-- The permutation of the nodes and the cells, ranges of it. -/
structure Bisection where
  permutation : List NodeID
  cells : List CellBisection

def getLargeCells (max_cell_size : ℕ) (cells : List CellBisection) : List ℕ :=
  (List.range cells.length).filter fun index =>
    cells[index]?.any fun cell => !cell.tabu && decide (max_cell_size < cell.cell_end - cell.cell_begin)
def cellNodes (permutation : List NodeID) (cell : CellBisection) : List NodeID := slice permutation cell.cell_begin cell.cell_end

/-- The cells are numbered in their order. -/
def cellsToPartition (s : Bisection) : NodeID → CellID :=
  (s.cells.foldl (fun (partition,cell_id) cell =>
    (fun node => if node ∈ cellNodes s.permutation cell then cell_id else partition node,cell_id + 1))
    ((fun _ => INVALID_CELL_ID : NodeID → CellID),0)).1

section Split
variable (std : StdPartition) (node_to_bisection_id : List BisectionID)

def bisectionId (node : NodeID) : BisectionID := node_to_bisection_id.getD node 0
def maskedSum (permutation : List NodeID) (cell : CellBisection) : BisectionID :=
  let sum := (cellNodes permutation cell).foldl (fun lhs rhs => lhs ||| bisectionId node_to_bisection_id rhs) 0
  sum &&& BitVec.ofNat 32 (2 ^ (cell.bit + 1) - 1)

/-- The body of the loop over the large cells: the permutation, the cell, and the one that is added. -/
def split (permutation : List NodeID) (cell : CellBisection) : List NodeID × CellBisection × Option CellBisection :=
  let masked_sum := maskedSum node_to_bisection_id permutation cell
  if masked_sum = 0 then (permutation,{ cell with tabu := true },none)
  else
    let bit := masked_sum.toNat.log2
    let is_left := fun node => bisectionId node_to_bisection_id node &&& BitVec.twoPow 32 bit != 0
    let middle := cell.cell_begin + (cellNodes permutation cell).countP is_left
    let permutation' := replaceSlice permutation cell.cell_begin cell.cell_end (std.run is_left (cellNodes permutation cell))
    let cell' : CellBisection := if 0 < bit then { cell with bit := bit - 1 } else { cell with tabu := true }
    if middle ≠ cell.cell_begin ∧ middle ≠ cell.cell_end then
      (permutation',{ cell' with cell_end := middle },some { cell' with cell_begin := middle })
    else (permutation',cell',none)

def splitCell (s : Bisection) (cell_index : ℕ) : Bisection :=
  match s.cells[cell_index]? with
  | none => s
  | some cell =>
    let (permutation,first,second) := split std node_to_bisection_id s.permutation cell
    ⟨permutation,s.cells.set cell_index first ++ second.toList⟩

def partitionLevel (max_cell_size : ℕ) (fuel : ℕ) : Bisection → Option Bisection :=
  whileLoop (fun s => !(getLargeCells max_cell_size s.cells).isEmpty)
    (fun s => (getLargeCells max_cell_size s.cells).foldl (splitCell std node_to_bisection_id) s) fuel

/-- The levels, the highest one first. -/
def makeLevels (fuel : ℕ) : List ℕ → Bisection → Option (List ((NodeID → CellID) × ℕ))
  | [],_ => some []
  | max_cell_size :: rest,s =>
    (partitionLevel std node_to_bisection_id max_cell_size fuel s).bind fun s' =>
      (makeLevels fuel rest s').map ((cellsToPartition s',s'.cells.length) :: ·)

/-- The partitions and the numbers of their cells, the lowest level first. -/
def bisectionToPartition (max_cell_sizes : List ℕ) (fuel : ℕ) : Option (List (NodeID → CellID) × List ℕ) :=
  let number_of_nodes := node_to_bisection_id.length
  (makeLevels std node_to_bisection_id fuel max_cell_sizes.reverse
      ⟨List.range number_of_nodes,[⟨0,number_of_nodes,NUM_BISECTION_BITS - 1,false⟩]⟩).map fun levels =>
    (levels.reverse.map (·.1),levels.reverse.map (·.2))

end Split

section Bits
variable (node_to_bisection_id : List BisectionID)

def idBit (node : NodeID) (i : ℕ) : Bool := (bisectionId node_to_bisection_id node).getLsbD i

private theorem foldl_or (nodes : List NodeID) (start : BisectionID) (i : ℕ) :
    (nodes.foldl (fun lhs rhs => lhs ||| bisectionId node_to_bisection_id rhs) start).getLsbD i =
      (start.getLsbD i || nodes.any fun node => idBit node_to_bisection_id node i) := by
  induction nodes generalizing start with
  | nil => simp
  | cons node rest ih => rw [foldl_cons,ih,BitVec.getLsbD_or,any_cons,Bool.or_assoc,idBit]

variable {node_to_bisection_id} {permutation : List NodeID} {cell : CellBisection} {i : ℕ}

private theorem maskedSum_bit (small : cell.bit < 32) : (maskedSum node_to_bisection_id permutation cell).getLsbD i =
    (decide (i ≤ cell.bit) && (cellNodes permutation cell).any fun node => idBit node_to_bisection_id node i) := by
  rw [maskedSum,BitVec.getLsbD_and,foldl_or,BitVec.getLsbD_ofNat,Nat.testBit_two_pow_sub_one]
  by_cases le : i ≤ cell.bit
  · simp [le,show i < 32 by omega,show i < cell.bit + 1 by omega]
  · simp [le,show ¬ i < cell.bit + 1 by omega]

private theorem is_left_iff (node : NodeID) (small : i < 32) :
    (bisectionId node_to_bisection_id node &&& BitVec.twoPow 32 i != 0) = idBit node_to_bisection_id node i := by
  rw [BitVec.and_twoPow,idBit]
  cases (bisectionId node_to_bisection_id node).getLsbD i with
  | true =>
    rw [if_pos rfl,bne_iff_ne]
    intro zero
    have bit := congrArg (·.getLsbD i) zero
    simp [small] at bit
  | false => rw [if_neg Bool.false_ne_true]; rfl

private theorem bits_of_maskedSum_zero (small : cell.bit < 32) (zero : maskedSum node_to_bisection_id permutation cell = 0)
    {node : NodeID} (member : node ∈ cellNodes permutation cell) (le : i ≤ cell.bit) : idBit node_to_bisection_id node i = false := by
  have bit : (maskedSum node_to_bisection_id permutation cell).getLsbD i = _ := maskedSum_bit small
  rw [decide_eq_true le,Bool.true_and,zero] at bit
  have none : (cellNodes permutation cell).any (fun node => idBit node_to_bisection_id node i) = false := bit.symm.trans (by simp)
  simpa using any_eq_false.mp none node member

private theorem log2_maskedSum (small : cell.bit < 32) (some_bit : maskedSum node_to_bisection_id permutation cell ≠ 0) :
    (maskedSum node_to_bisection_id permutation cell).toNat.log2 ≤ cell.bit ∧
      ∀ node ∈ cellNodes permutation cell, ∀ i, (maskedSum node_to_bisection_id permutation cell).toNat.log2 < i → i ≤ cell.bit →
        idBit node_to_bisection_id node i = false := by
  have nonzero : (maskedSum node_to_bisection_id permutation cell).toNat ≠ 0 := fun zero => some_bit (BitVec.eq_of_toNat_eq zero)
  constructor
  · by_contra above
    have bit : (maskedSum node_to_bisection_id permutation cell).getLsbD _ = true := Nat.testBit_log2 nonzero
    rw [maskedSum_bit small,decide_eq_false above] at bit
    simp at bit
  · intro node member i above le
    have zero : (maskedSum node_to_bisection_id permutation cell).getLsbD i = false :=
      Nat.testBit_lt_two_pow ((Nat.log2_lt nonzero).mp above)
    rw [maskedSum_bit small,decide_eq_true le,Bool.true_and] at zero
    simpa using any_eq_false.mp zero node member

end Bits

/-! ### One cell -/

def weight (cell : CellBisection) : ℕ := if cell.tabu then 0 else (cell.cell_end - cell.cell_begin) * (cell.bit + 1)
def Apart (a b : CellBisection) : Prop := a.cell_end ≤ b.cell_begin ∨ b.cell_end ≤ a.cell_begin

/-- A cell has nodes, which agree on the bits above the one that it is split at next. -/
structure Good (node_to_bisection_id : List BisectionID) (permutation : List NodeID) (cell : CellBisection) : Prop where
  some_node : cell.cell_begin < cell.cell_end
  inside : cell.cell_end ≤ permutation.length
  small : cell.bit < 32
  agree : ∀ u ∈ cellNodes permutation cell, ∀ v ∈ cellNodes permutation cell, ∀ i, cell.bit < i →
    idBit node_to_bisection_id u i = idBit node_to_bisection_id v i
  done : cell.tabu = true → ∀ u ∈ cellNodes permutation cell, ∀ v ∈ cellNodes permutation cell,
    bisectionId node_to_bisection_id u = bisectionId node_to_bisection_id v

structure SplitInto (node_to_bisection_id : List BisectionID) (permutation : List NodeID) (cell : CellBisection)
    (permutation' : List NodeID) (pieces : List CellBisection) : Prop where
  moved : ∃ new, new.Perm (cellNodes permutation cell) ∧ permutation' = replaceSlice permutation cell.cell_begin cell.cell_end new
  good : ∀ piece ∈ pieces, Good node_to_bisection_id permutation' piece
  within : ∀ piece ∈ pieces, cell.cell_begin ≤ piece.cell_begin ∧ piece.cell_end ≤ cell.cell_end
  apart : pieces.Pairwise Apart
  cover : ∀ i, cell.cell_begin ≤ i → i < cell.cell_end → ∃ piece ∈ pieces, piece.cell_begin ≤ i ∧ i < piece.cell_end
  lighter : (pieces.map weight).sum ≤ weight cell ∧ (cell.tabu = false → (pieces.map weight).sum < weight cell)

section Pieces
variable {node_to_bisection_id : List BisectionID} {permutation : List NodeID} {cell : CellBisection}

private theorem good_piece (good : Good node_to_bisection_id permutation cell)
    (some_bit : maskedSum node_to_bisection_id permutation cell ≠ 0) {permutation' : List NodeID} {piece : CellBisection}
    (tabu : piece.tabu = (cell.tabu || decide ((maskedSum node_to_bisection_id permutation cell).toNat.log2 = 0)))
    (bit : piece.bit = if (maskedSum node_to_bisection_id permutation cell).toNat.log2 = 0 then cell.bit
      else (maskedSum node_to_bisection_id permutation cell).toNat.log2 - 1)
    (some_node : piece.cell_begin < piece.cell_end) (inside : piece.cell_end ≤ permutation'.length)
    {part : List NodeID} (here : cellNodes permutation' piece = part) (nodes : ∀ u ∈ part, u ∈ cellNodes permutation cell) (value : Bool)
    (side : ∀ u ∈ part, idBit node_to_bisection_id u (maskedSum node_to_bisection_id permutation cell).toNat.log2 = value) :
    Good node_to_bisection_id permutation' piece := by
  subst here
  obtain ⟨high,zero⟩ := log2_maskedSum good.small some_bit
  generalize (maskedSum node_to_bisection_id permutation cell).toNat.log2 = top at *
  have above : ∀ u ∈ cellNodes permutation' piece, ∀ v ∈ cellNodes permutation' piece, ∀ i, top ≤ i →
      idBit node_to_bisection_id u i = idBit node_to_bisection_id v i := by
    intro u memberU v memberV i le
    rcases Nat.lt_or_ge cell.bit i with old | new
    · exact good.agree u (nodes u memberU) v (nodes v memberV) i old
    · rcases Nat.eq_or_lt_of_le le with rfl | more
      · rw [side u memberU,side v memberV]
      · rw [zero u (nodes u memberU) i more new,zero v (nodes v memberV) i more new]
  refine ⟨some_node,inside,?_,?_,?_⟩
  · have := good.small
    rw [bit]
    split <;> omega
  · intro u memberU v memberV i less
    rw [bit] at less
    by_cases lowest : top = 0
    · exact above u memberU v memberV i (by omega)
    · rw [if_neg lowest] at less
      exact above u memberU v memberV i (by omega)
  · intro stopped u memberU v memberV
    rw [tabu,Bool.or_eq_true,decide_eq_true_iff] at stopped
    cases stopped with
    | inl old => exact good.done old u (nodes u memberU) v (nodes v memberV)
    | inr lowest =>
      apply BitVec.eq_of_getLsbD_eq
      intro i _
      exact above u memberU v memberV i (by omega)

private theorem lighter (good : Good node_to_bisection_id permutation cell)
    (some_bit : maskedSum node_to_bisection_id permutation cell ≠ 0) {cell' : CellBisection}
    (tabu : cell'.tabu = (cell.tabu || decide ((maskedSum node_to_bisection_id permutation cell).toNat.log2 = 0)))
    (bit : cell'.bit = if (maskedSum node_to_bisection_id permutation cell).toNat.log2 = 0 then cell.bit
      else (maskedSum node_to_bisection_id permutation cell).toNat.log2 - 1) (size : ℕ) (some_size : 0 < size) :
    (if cell'.tabu then 0 else size * (cell'.bit + 1)) ≤ (if cell.tabu then 0 else size * (cell.bit + 1)) ∧
      (cell.tabu = false → (if cell'.tabu then 0 else size * (cell'.bit + 1)) < size * (cell.bit + 1)) := by
  have lower := (log2_maskedSum good.small some_bit).1
  rw [tabu,bit]
  by_cases lowest : (maskedSum node_to_bisection_id permutation cell).toNat.log2 = 0
  · simp only [lowest,decide_true,Bool.or_true,if_true]
    exact ⟨Nat.zero_le _,fun _ => Nat.mul_pos some_size (Nat.succ_pos _)⟩
  · have fewer : size * ((maskedSum node_to_bisection_id permutation cell).toNat.log2 - 1 + 1) < size * (cell.bit + 1) :=
      Nat.mul_lt_mul_of_pos_left (by omega) some_size
    cases mark : cell.tabu with
    | true => simp
    | false => simpa [lowest] using ⟨fewer.le,fewer⟩

section Parts
variable (good : Good node_to_bisection_id permutation cell) (some_bit : maskedSum node_to_bisection_id permutation cell ≠ 0)
  {front back : List NodeID} (moved : (front ++ back).Perm (cellNodes permutation cell))
  (left : ∀ u ∈ front, idBit node_to_bisection_id u (maskedSum node_to_bisection_id permutation cell).toNat.log2 = true)
  (right : ∀ u ∈ back, idBit node_to_bisection_id u (maskedSum node_to_bisection_id permutation cell).toNat.log2 = false)
include good moved

private theorem size_moved : front.length + back.length = cell.cell_end - cell.cell_begin := by
  rw [← length_append,moved.length_eq,cellNodes,length_slice good.inside]
private theorem slice_moved : slice (replaceSlice permutation cell.cell_begin cell.cell_end (front ++ back)) cell.cell_begin cell.cell_end =
    front ++ back :=
  slice_replaceSlice good.inside good.some_node.le (by rw [length_append,size_moved good moved])

private theorem halves_moved :
    slice (replaceSlice permutation cell.cell_begin cell.cell_end (front ++ back)) cell.cell_begin (cell.cell_begin + front.length) = front ∧
      slice (replaceSlice permutation cell.cell_begin cell.cell_end (front ++ back)) (cell.cell_begin + front.length) cell.cell_end = back := by
  have ordered := good.some_node
  have inside := good.inside
  have size := size_moved good moved
  have total := (replaceSlice_perm ordered.le moved).length_eq
  have whole := slice_moved good moved
  rw [← slice_append (Nat.le_add_right cell.cell_begin front.length) (by omega)] at whole
  apply append_inj whole
  rw [length_slice (by omega)]
  omega

include some_bit left right
variable (cell' : CellBisection) (first : cell'.cell_begin = cell.cell_begin) (last : cell'.cell_end = cell.cell_end)
  (tabu : cell'.tabu = (cell.tabu || decide ((maskedSum node_to_bisection_id permutation cell).toNat.log2 = 0)))
  (bit : cell'.bit = if (maskedSum node_to_bisection_id permutation cell).toNat.log2 = 0 then cell.bit
    else (maskedSum node_to_bisection_id permutation cell).toNat.log2 - 1)
include first last tabu bit

private theorem splitInto_two (both : cell.cell_begin + front.length ≠ cell.cell_begin ∧ cell.cell_begin + front.length ≠ cell.cell_end) :
    SplitInto node_to_bisection_id permutation cell (replaceSlice permutation cell.cell_begin cell.cell_end (front ++ back))
      [{ cell' with cell_end := cell.cell_begin + front.length },{ cell' with cell_begin := cell.cell_begin + front.length }] := by
  have ordered := good.some_node
  have inside := good.inside
  have size := size_moved good moved
  have total := (replaceSlice_perm ordered.le moved).length_eq
  have less := lighter good some_bit tabu bit
  have halves := halves_moved good moved
  refine ⟨⟨_,moved,rfl⟩,?_,?_,?_,?_,?_⟩
  · intro piece member
    simp only [mem_cons,not_mem_nil,or_false] at member
    cases member with
    | inl here =>
      subst here
      refine good_piece good some_bit tabu bit (by dsimp only; omega) (by dsimp only; omega) ?_ ?_ true left
      · rw [cellNodes,first]
        exact halves.1
      · exact fun u member => moved.subset (mem_append_left _ member)
    | inr here =>
      subst here
      refine good_piece good some_bit tabu bit (by dsimp only; omega) (by dsimp only; omega) ?_ ?_ false right
      · rw [cellNodes,last]
        exact halves.2
      · exact fun u member => moved.subset (mem_append_right _ member)
  · simp only [mem_cons,not_mem_nil,or_false]
    rintro piece (rfl | rfl)
    · dsimp only; omega
    · dsimp only; omega
  · simp [Apart]
  · intro i low high
    rcases Nat.lt_or_ge i (cell.cell_begin + front.length) with before | after
    · exact ⟨_,mem_cons_self,by dsimp only; omega,before⟩
    · exact ⟨_,mem_cons_of_mem _ mem_cons_self,after,by dsimp only; omega⟩
  · obtain ⟨le,lt⟩ := less (cell.cell_end - cell.cell_begin) (by omega)
    have sum : weight { cell' with cell_end := cell.cell_begin + front.length } +
        weight { cell' with cell_begin := cell.cell_begin + front.length } =
        if cell'.tabu then 0 else (cell.cell_end - cell.cell_begin) * (cell'.bit + 1) := by
      cases mark : cell'.tabu with
      | true => simp [weight]
      | false =>
        simp only [weight,first,last,Bool.false_eq_true,if_false,← Nat.add_mul]
        congr 1
        omega
    simp only [map_cons,map_nil,sum_cons,sum_nil,Nat.add_zero]
    rw [sum]
    refine ⟨le,fun live => ?_⟩
    simpa [weight,live] using lt live

private theorem splitInto_one (one : ¬ (cell.cell_begin + front.length ≠ cell.cell_begin ∧ cell.cell_begin + front.length ≠ cell.cell_end)) :
    SplitInto node_to_bisection_id permutation cell (replaceSlice permutation cell.cell_begin cell.cell_end (front ++ back)) [cell'] := by
  have ordered := good.some_node
  have inside := good.inside
  have size := size_moved good moved
  have total := (replaceSlice_perm ordered.le moved).length_eq
  have whole := slice_moved good moved
  have less := lighter good some_bit tabu bit
  have one : front = [] ∨ back = [] := by
    rcases Nat.eq_zero_or_pos front.length with none | some_front
    · exact .inl (length_eq_zero_iff.mp none)
    · exact .inr (length_eq_zero_iff.mp (by omega))
  have nodes : cellNodes (replaceSlice permutation cell.cell_begin cell.cell_end (front ++ back)) cell' = front ++ back := by
    rw [cellNodes,first,last]
    exact whole
  refine ⟨⟨_,moved,rfl⟩,?_,?_,?_,?_,?_⟩
  · intro piece member
    cases mem_singleton.mp member
    cases one with
    | inl none =>
      subst none
      exact good_piece good some_bit tabu bit (by omega) (by omega) nodes (fun u member => moved.subset member) false right
    | inr none =>
      subst none
      rw [append_nil] at nodes moved ⊢
      exact good_piece good some_bit tabu bit (by omega) (by rw [append_nil] at total; omega) nodes
        (fun u member => moved.subset member) true left
  · intro piece member
    cases mem_singleton.mp member
    omega
  · exact pairwise_singleton _ _
  · intro i low high
    exact ⟨cell',mem_cons_self,by omega,by omega⟩
  · obtain ⟨le,lt⟩ := less (cell.cell_end - cell.cell_begin) (by omega)
    simp only [map_cons,map_nil,sum_cons,sum_nil,Nat.add_zero,weight,first,last]
    refine ⟨le,fun live => ?_⟩
    simpa [live] using lt live

private theorem splitInto_parts :
    SplitInto node_to_bisection_id permutation cell (replaceSlice permutation cell.cell_begin cell.cell_end (front ++ back))
      (if cell.cell_begin + front.length ≠ cell.cell_begin ∧ cell.cell_begin + front.length ≠ cell.cell_end then
        [{ cell' with cell_end := cell.cell_begin + front.length },{ cell' with cell_begin := cell.cell_begin + front.length }]
      else [cell']) := by
  split_ifs with both
  · exact splitInto_two good some_bit moved left right cell' first last tabu bit both
  · exact splitInto_one good some_bit moved left right cell' first last tabu bit both

end Parts

variable (std : StdPartition)

private theorem split_spec (good : Good node_to_bisection_id permutation cell) :
    SplitInto node_to_bisection_id permutation cell (split std node_to_bisection_id permutation cell).1
      ((split std node_to_bisection_id permutation cell).2.1 :: (split std node_to_bisection_id permutation cell).2.2.toList) := by
  have ordered := good.some_node
  by_cases none : maskedSum node_to_bisection_id permutation cell = 0
  · -- no bit is left: the nodes have one id
    rw [split,if_pos none]
    refine ⟨⟨_,Perm.refl _,(replaceSlice_slice ordered.le).symm⟩,?_,?_,?_,?_,?_⟩
    · intro piece member
      cases mem_singleton.mp member
      refine ⟨ordered,good.inside,good.small,good.agree,fun _ u memberU v memberV => ?_⟩
      apply BitVec.eq_of_getLsbD_eq
      intro i _
      rcases Nat.lt_or_ge cell.bit i with above | below
      · exact good.agree u memberU v memberV i above
      · exact (bits_of_maskedSum_zero good.small none memberU below).trans (bits_of_maskedSum_zero good.small none memberV below).symm
    · simp
    · simp
    · exact fun i low high => ⟨_,mem_cons_self,low,high⟩
    · simp only [toList_none,map_cons,map_nil,sum_cons,sum_nil,weight,if_true]
      refine ⟨Nat.zero_le _,fun live => ?_⟩
      rw [live]
      exact Nat.mul_pos (by omega) (Nat.succ_pos _)
  · obtain ⟨high,_⟩ := log2_maskedSum good.small none
    have small := good.small
    have is_left : (fun node => bisectionId node_to_bisection_id node &&&
        BitVec.twoPow 32 (maskedSum node_to_bisection_id permutation cell).toNat.log2 != 0) =
        fun node => idBit node_to_bisection_id node (maskedSum node_to_bisection_id permutation cell).toNat.log2 :=
      funext fun node => is_left_iff node (by omega)
    obtain ⟨front,back,run,left,right⟩ := std.parts
      (fun node => idBit node_to_bisection_id node (maskedSum node_to_bisection_id permutation cell).toNat.log2) (cellNodes permutation cell)
    have moved := std.perm
      (fun node => idBit node_to_bisection_id node (maskedSum node_to_bisection_id permutation cell).toNat.log2) (cellNodes permutation cell)
    rw [run] at moved
    have count : (cellNodes permutation cell).countP
        (fun node => idBit node_to_bisection_id node (maskedSum node_to_bisection_id permutation cell).toNat.log2) = front.length := by
      rw [← moved.countP_eq,countP_append,countP_eq_length.mpr left,countP_eq_zero.mpr fun u member => by
        rw [right u member]; exact Bool.false_ne_true,Nat.add_zero]
    have parts := splitInto_parts good none moved left right
      (if 0 < (maskedSum node_to_bisection_id permutation cell).toNat.log2 then
        { cell with bit := (maskedSum node_to_bisection_id permutation cell).toNat.log2 - 1 } else { cell with tabu := true })
      (by split <;> rfl) (by split <;> rfl) (by
        rcases Nat.eq_zero_or_pos (maskedSum node_to_bisection_id permutation cell).toNat.log2 with zero | positive
        · rw [zero]; simp
        · rw [if_pos positive]; simp [positive.ne']) (by
        rcases Nat.eq_zero_or_pos (maskedSum node_to_bisection_id permutation cell).toNat.log2 with zero | positive
        · rw [zero]; simp
        · rw [if_pos positive,if_neg positive.ne'])
    rw [split,if_neg none]
    simp only [is_left,run,count]
    split
    · rename_i both
      rw [if_pos both] at parts
      exact parts
    · rename_i both
      rw [if_neg both] at parts
      exact parts

end Pieces

/-! ### All cells -/

section Cells
variable {node_to_bisection_id : List BisectionID} {s s' s'' : Bisection} {max_cell_size k : ℕ}

structure Valid (node_to_bisection_id : List BisectionID) (s : Bisection) : Prop where
  nodes : s.permutation.Perm (List.range node_to_bisection_id.length)
  good : ∀ cell ∈ s.cells, Good node_to_bisection_id s.permutation cell
  apart : s.cells.Pairwise Apart
  cover : ∀ i < node_to_bisection_id.length, ∃ cell ∈ s.cells, cell.cell_begin ≤ i ∧ i < cell.cell_end

def Refines (s' s : Bisection) : Prop :=
  ∀ cell' ∈ s'.cells, ∃ cell ∈ s.cells, ∀ u ∈ cellNodes s'.permutation cell', u ∈ cellNodes s.permutation cell

private theorem Refines.refl (s : Bisection) : Refines s s := fun cell member => ⟨cell,member,fun _ inside => inside⟩

private theorem Refines.trans (later : Refines s'' s') (earlier : Refines s' s) : Refines s'' s := by
  intro cell'' member
  obtain ⟨cell',member',inside'⟩ := later cell'' member
  obtain ⟨cell,known,inside⟩ := earlier cell' member'
  exact ⟨cell,known,fun u here => inside u (inside' u here)⟩

def totalWeight (s : Bisection) : ℕ := (s.cells.map weight).sum

variable (std : StdPartition)

private theorem Good.frame {permutation permutation' : List NodeID} {cell : CellBisection} (good : Good node_to_bisection_id permutation cell)
    (length : permutation'.length = permutation.length) (same : cellNodes permutation' cell = cellNodes permutation cell) :
    Good node_to_bisection_id permutation' cell := by
  refine ⟨good.some_node,length ▸ good.inside,good.small,?_,?_⟩
  · rw [same]
    exact good.agree
  · rw [same]
    exact good.done

private theorem splitCell_spec (valid : Valid node_to_bisection_id s) (k : ℕ) :
    Valid node_to_bisection_id (splitCell std node_to_bisection_id s k) ∧ Refines (splitCell std node_to_bisection_id s k) s ∧
      totalWeight (splitCell std node_to_bisection_id s k) ≤ totalWeight s ∧
      ∀ cell, s.cells[k]? = some cell → cell.tabu = false → totalWeight (splitCell std node_to_bisection_id s k) < totalWeight s := by
  cases found : s.cells[k]? with
  | none =>
    have same : splitCell std node_to_bisection_id s k = s := by rw [splitCell,found]
    rw [same]
    exact ⟨valid,Refines.refl s,le_rfl,by simp⟩
  | some cell =>
    obtain ⟨below,here⟩ := List.getElem?_eq_some_iff.mp found
    have good := valid.good cell (here ▸ getElem_mem below)
    obtain ⟨⟨new,moved,change⟩,goods,within,apart,cover,lighter⟩ := split_spec std good
    have step : splitCell std node_to_bisection_id s k = ⟨(split std node_to_bisection_id s.permutation cell).1,
        s.cells.set k (split std node_to_bisection_id s.permutation cell).2.1 ++
          (split std node_to_bisection_id s.permutation cell).2.2.toList⟩ := by rw [splitCell,found]
    rw [step]
    generalize (split std node_to_bisection_id s.permutation cell).2.2.toList = added at *
    generalize (split std node_to_bisection_id s.permutation cell).2.1 = first at *
    generalize (split std node_to_bisection_id s.permutation cell).1 = permutation' at *
    -- the cell and the other ones, its pieces and the other ones
    have before : s.cells.Perm (cell :: s.cells.eraseIdx k) := here ▸ (getElem_cons_eraseIdx_perm below).symm
    have after : (s.cells.set k first ++ added).Perm ((first :: added) ++ s.cells.eraseIdx k) := by
      refine ((set_perm_cons_eraseIdx below first).append_right added).trans ?_
      exact List.Perm.cons first perm_append_comm
    generalize s.cells.eraseIdx k = others at before after
    have symmetric : ∀ {a b : CellBisection}, Apart a b → Apart b a := fun h => h.symm
    obtain ⟨far,spread⟩ := pairwise_cons.mp ((before.pairwise_iff symmetric).mp valid.apart)
    have ordered := good.some_node
    have size : new.length = cell.cell_end - cell.cell_begin := by rw [moved.length_eq,cellNodes,length_slice good.inside]
    have total : permutation'.length = s.permutation.length := by rw [change,(replaceSlice_perm ordered.le moved).length_eq]
    have frame : ∀ other ∈ others, cellNodes permutation' other = cellNodes s.permutation other := by
      intro other member
      rw [change]
      exact slice_replaceSlice_apart good.inside ordered.le size (far other member).symm
    have known : ∀ other ∈ others, other ∈ s.cells := fun other member => before.mem_iff.mpr (mem_cons_of_mem _ member)
    have member_iff : ∀ piece, piece ∈ s.cells.set k first ++ added ↔ piece ∈ first :: added ∨ piece ∈ others := by
      intro piece
      rw [after.mem_iff,mem_append]
    have sumBefore : totalWeight s = weight cell + (others.map weight).sum := by
      rw [totalWeight,(before.map weight).sum_eq,map_cons,sum_cons]
    have sumAfter : totalWeight ⟨permutation',s.cells.set k first ++ added⟩ =
        ((first :: added).map weight).sum + (others.map weight).sum := by
      rw [totalWeight,(after.map weight).sum_eq,map_append,sum_append]
    refine ⟨⟨?_,?_,?_,?_⟩,?_,?_,?_⟩
    · dsimp only
      rw [change]
      exact (replaceSlice_perm ordered.le moved).trans valid.nodes
    · intro piece member
      cases (member_iff piece).mp member with
      | inl part => exact goods piece part
      | inr other =>
        exact (valid.good piece (known piece other)).frame total (frame piece other)
    · refine (after.pairwise_iff symmetric).mpr (pairwise_append.mpr ⟨apart,spread,?_⟩)
      intro piece part other member
      have bounds := within piece part
      cases far other member with
      | inl left => exact .inl (bounds.2.trans left)
      | inr right => exact .inr (right.trans bounds.1)
    · intro i inside
      obtain ⟨old,member,low,high⟩ := valid.cover i inside
      cases mem_cons.mp (before.mem_iff.mp member) with
      | inl same =>
        subst same
        obtain ⟨piece,part,bounds⟩ := cover i low high
        exact ⟨piece,(member_iff piece).mpr (.inl part),bounds⟩
      | inr other => exact ⟨old,(member_iff old).mpr (.inr other),low,high⟩
    · intro piece member
      cases (member_iff piece).mp member with
      | inl part =>
        refine ⟨cell,before.mem_iff.mpr mem_cons_self,fun u inside => moved.subset ?_⟩
        obtain ⟨i,low,high,found⟩ := mem_slice.mp inside
        have bounds := within piece part
        rw [← slice_replaceSlice good.inside ordered.le size,← change]
        exact mem_slice.mpr ⟨i,by omega,by omega,found⟩
      | inr other => exact ⟨piece,known piece other,fun u inside => by rwa [← frame piece other]⟩
    · rw [sumBefore,sumAfter]
      exact Nat.add_le_add_right lighter.1 _
    · intro other same live
      cases same
      rw [sumBefore,sumAfter]
      exact Nat.add_lt_add_right (lighter.2 live) _

private theorem foldl_splitCell (valid : Valid node_to_bisection_id s) (indices : List ℕ) :
    Valid node_to_bisection_id (indices.foldl (splitCell std node_to_bisection_id) s) ∧
      Refines (indices.foldl (splitCell std node_to_bisection_id) s) s ∧
      totalWeight (indices.foldl (splitCell std node_to_bisection_id) s) ≤ totalWeight s := by
  induction indices generalizing s with
  | nil => exact ⟨valid,Refines.refl s,le_rfl⟩
  | cons k rest ih =>
    obtain ⟨kept,finer,le,_⟩ := splitCell_spec std valid k
    obtain ⟨valid',finer',le'⟩ := ih kept
    exact ⟨valid',finer'.trans finer,le'.trans le⟩

private theorem mem_getLargeCells {cells : List CellBisection} : k ∈ getLargeCells max_cell_size cells ↔
    ∃ cell, cells[k]? = some cell ∧ cell.tabu = false ∧ max_cell_size < cell.cell_end - cell.cell_begin := by
  rw [getLargeCells,mem_filter,mem_range]
  constructor
  · rintro ⟨_,large⟩
    cases found : cells[k]? with
    | none => simp [found] at large
    | some cell => exact ⟨cell,rfl,by simpa [found] using large⟩
  · rintro ⟨cell,found,live,large⟩
    exact ⟨(List.getElem?_eq_some_iff.mp found).1,by simp [found,live,large]⟩

private theorem partitionLevel_total (valid : Valid node_to_bisection_id s) (max_cell_size : ℕ) {fuel : ℕ} (enough : totalWeight s ≤ fuel) :
    ∃ s', partitionLevel std node_to_bisection_id max_cell_size fuel s = some s' ∧ Valid node_to_bisection_id s' ∧ Refines s' s ∧
      ∀ cell ∈ s'.cells, cell.tabu = true ∨ cell.cell_end - cell.cell_begin ≤ max_cell_size := by
  obtain ⟨s',ran,⟨valid',finer⟩,stopped⟩ : ∃ s', partitionLevel std node_to_bisection_id max_cell_size fuel s = some s' ∧
      (Valid node_to_bisection_id s' ∧ Refines s' s) ∧ (!(getLargeCells max_cell_size s'.cells).isEmpty) = false := by
    unfold partitionLevel
    refine whileLoop_total (fun t => Valid node_to_bisection_id t ∧ Refines t s) totalWeight ?_ ?_ fuel s ⟨valid,Refines.refl s⟩ enough
    · intro t inv _
      obtain ⟨kept,finer,_⟩ := foldl_splitCell std inv.1 (getLargeCells max_cell_size t.cells)
      exact ⟨kept,finer.trans inv.2⟩
    · intro t inv more
      -- the first of the large cells becomes lighter
      cases large : getLargeCells max_cell_size t.cells with
      | nil => simp [large] at more
      | cons k rest =>
        obtain ⟨cell,found,live,_⟩ := mem_getLargeCells.mp (large ▸ mem_cons_self : k ∈ getLargeCells max_cell_size t.cells)
        obtain ⟨kept,_,_,less⟩ := splitCell_spec std inv.1 k
        rw [foldl_cons]
        exact (foldl_splitCell std kept rest).2.2.trans_lt (less cell found live)
  refine ⟨s',ran,valid',finer,fun cell member => ?_⟩
  have none : getLargeCells max_cell_size s'.cells = [] := by simpa using stopped
  obtain ⟨k,found⟩ := mem_iff_getElem?.mp member
  by_contra neither
  rw [not_or,Bool.not_eq_true,not_le] at neither
  have large : k ∈ getLargeCells max_cell_size s'.cells := mem_getLargeCells.mpr ⟨cell,found,neither⟩
  rw [none] at large
  exact not_mem_nil large

/-! ### The partition of a level -/

private theorem foldl_number (permutation : List NodeID) (cells : List CellBisection) (u : NodeID)
    (apart : cells.Pairwise fun a b => u ∈ cellNodes permutation a → u ∉ cellNodes permutation b) (start : CellID)
    (partition : NodeID → CellID) :
    let numbered := (cells.foldl (fun (partition,cell_id) cell =>
      (fun node => if node ∈ cellNodes permutation cell then cell_id else partition node,cell_id + 1)) (partition,start)).1
    (∀ k cell, cells[k]? = some cell → u ∈ cellNodes permutation cell → numbered u = start + k) ∧
      ((∀ cell ∈ cells, u ∉ cellNodes permutation cell) → numbered u = partition u) := by
  induction cells generalizing start partition with
  | nil => simp
  | cons cell rest ih =>
    obtain ⟨other,later⟩ := pairwise_cons.mp apart
    obtain ⟨found,missing⟩ := ih later (start + 1) fun node => if node ∈ cellNodes permutation cell then start else partition node
    refine ⟨fun k next here inside => ?_,fun none => ?_⟩
    · cases k with
      | zero =>
        obtain rfl : cell = next := by simpa using here
        rw [foldl_cons,missing fun next member => other next member inside,if_pos inside,Nat.add_zero]
      | succ k =>
        rw [foldl_cons,found k next (by simpa using here) inside,Nat.add_assoc,Nat.add_comm 1 k]
    · rw [foldl_cons,missing fun next member => none next (mem_cons_of_mem _ member),if_neg (none cell mem_cons_self)]

private theorem cellsToPartition_eq (valid : Valid node_to_bisection_id s) {cell : CellBisection} (found : s.cells[k]? = some cell) {u : NodeID}
    (inside : u ∈ cellNodes s.permutation cell) : cellsToPartition s u = k := by
  have distinct : s.permutation.Nodup := valid.nodes.nodup_iff.mpr nodup_range
  have apart : s.cells.Pairwise fun a b => u ∈ cellNodes s.permutation a → u ∉ cellNodes s.permutation b := by
    refine valid.apart.imp fun {a b} far first second => ?_
    obtain ⟨i,low,high,found⟩ := mem_slice.mp first
    obtain ⟨j,low',high',found'⟩ := mem_slice.mp second
    obtain rfl : i = j := by
      obtain ⟨below,_⟩ := List.getElem?_eq_some_iff.mp found
      exact (getElem?_inj below distinct).mp (found.trans found'.symm)
    cases far with
    | inl before => omega
    | inr after => omega
  have number := (foldl_number s.permutation s.cells u apart 0 fun _ => INVALID_CELL_ID).1 k cell found inside
  rw [Nat.zero_add] at number
  exact number

private theorem exists_cell (valid : Valid node_to_bisection_id s) {u : NodeID} (known : u < node_to_bisection_id.length) :
    ∃ (k : ℕ) (cell : CellBisection), s.cells[k]? = some cell ∧ u ∈ cellNodes s.permutation cell := by
  have size : s.permutation.length = node_to_bisection_id.length := by rw [valid.nodes.length_eq,length_range]
  obtain ⟨i,found⟩ := mem_iff_getElem?.mp (valid.nodes.mem_iff.mpr (mem_range.mpr known))
  have below := (List.getElem?_eq_some_iff.mp found).1
  obtain ⟨cell,member,low,high⟩ := valid.cover i (by omega)
  obtain ⟨k,here⟩ := mem_iff_getElem?.mp member
  exact ⟨k,cell,here,mem_slice.mpr ⟨i,low,high,found⟩⟩

private theorem cellsToPartition_iff (valid : Valid node_to_bisection_id s) {u : NodeID} (known : u < node_to_bisection_id.length) {id : CellID} :
    cellsToPartition s u = id ↔ ∃ cell, s.cells[id]? = some cell ∧ u ∈ cellNodes s.permutation cell := by
  constructor
  · rintro rfl
    obtain ⟨k,cell,found,inside⟩ := exists_cell valid known
    exact ⟨cell,by rw [cellsToPartition_eq valid found inside,found],inside⟩
  · rintro ⟨cell,found,inside⟩
    exact cellsToPartition_eq valid found inside

/-- The cells of a level are numbered without a gap, and a cell is small enough or has one bisection id only. -/
structure Level (node_to_bisection_id : List BisectionID) (max_cell_size : ℕ) (partition : NodeID → CellID) (num_cells : ℕ) : Prop where
  dense : ∀ id, (∃ node < node_to_bisection_id.length, partition node = id) ↔ id < num_cells
  bounded : ∀ id, ((Finset.range node_to_bisection_id.length).filter (partition · = id)).card ≤ max_cell_size ∨
    ∀ u < node_to_bisection_id.length, ∀ v < node_to_bisection_id.length, partition u = id → partition v = id →
      bisectionId node_to_bisection_id u = bisectionId node_to_bisection_id v

private theorem level_of_cells (valid : Valid node_to_bisection_id s)
    (stopped : ∀ cell ∈ s.cells, cell.tabu = true ∨ cell.cell_end - cell.cell_begin ≤ max_cell_size) :
    Level node_to_bisection_id max_cell_size (cellsToPartition s) s.cells.length := by
  have size : s.permutation.length = node_to_bisection_id.length := by rw [valid.nodes.length_eq,length_range]
  have range : ∀ u ∈ s.permutation, u < node_to_bisection_id.length := fun u member => mem_range.mp (valid.nodes.mem_iff.mp member)
  have inside : ∀ cell, ∀ u ∈ cellNodes s.permutation cell, u ∈ s.permutation := by
    intro cell u member
    obtain ⟨i,_,_,found⟩ := mem_slice.mp member
    exact mem_of_getElem? found
  constructor
  · intro id
    constructor
    · rintro ⟨node,known,number⟩
      obtain ⟨cell,found,_⟩ := (cellsToPartition_iff valid known).mp number
      exact (List.getElem?_eq_some_iff.mp found).1
    · intro below
      have good := valid.good _ (getElem_mem below)
      have some_node : 0 < (cellNodes s.permutation s.cells[id]).length := by
        rw [cellNodes,length_slice good.inside]
        have := good.some_node
        omega
      have member := getElem_mem some_node
      have known := range _ (inside _ _ member)
      exact ⟨_,known,(cellsToPartition_iff valid known).mpr ⟨_,getElem?_eq_getElem below,member⟩⟩
  · intro id
    cases found : s.cells[id]? with
    | none =>
      right
      intro u known _ _ number
      obtain ⟨cell,here,_⟩ := (cellsToPartition_iff valid known).mp number
      rw [found] at here
      exact absurd here (by simp)
    | some cell =>
      have good := valid.good cell (mem_of_getElem? found)
      have nodes : ∀ u < node_to_bisection_id.length, cellsToPartition s u = id → u ∈ cellNodes s.permutation cell := by
        intro u known number
        obtain ⟨other,here,member⟩ := (cellsToPartition_iff valid known).mp number
        rw [found] at here
        exact some.inj here ▸ member
      cases stopped cell (mem_of_getElem? found) with
      | inl tabu => exact .inr fun u insideU v insideV numberU numberV => good.done tabu u (nodes u insideU numberU) v (nodes v insideV numberV)
      | inr small =>
        left
        have subset : (Finset.range node_to_bisection_id.length).filter (cellsToPartition s · = id) ⊆
            (cellNodes s.permutation cell).toFinset := by
          intro u member
          rw [Finset.mem_filter,Finset.mem_range] at member
          exact mem_toFinset.mpr (nodes u member.1 member.2)
        calc ((Finset.range node_to_bisection_id.length).filter (cellsToPartition s · = id)).card
            ≤ (cellNodes s.permutation cell).toFinset.card := Finset.card_le_card subset
          _ ≤ (cellNodes s.permutation cell).length := toFinset_card_le _
          _ = cell.cell_end - cell.cell_begin := length_slice good.inside
          _ ≤ max_cell_size := small

def Finer (num_nodes : ℕ) (lower higher : NodeID → CellID) : Prop :=
  ∀ u < num_nodes, ∀ v < num_nodes, lower u = lower v → higher u = higher v

private theorem finer_of_refines (valid : Valid node_to_bisection_id s) (valid' : Valid node_to_bisection_id s') (finer : Refines s' s) :
    Finer node_to_bisection_id.length (cellsToPartition s') (cellsToPartition s) := by
  intro u insideU v insideV same
  obtain ⟨cell',found,memberU⟩ := (cellsToPartition_iff valid' insideU).mp same
  obtain ⟨cell'',found',memberV⟩ := (cellsToPartition_iff valid' insideV).mp rfl
  obtain rfl : cell' = cell'' := some.inj (found.symm.trans found')
  obtain ⟨cell,member,inside⟩ := finer cell' (mem_of_getElem? found)
  obtain ⟨k,here⟩ := mem_iff_getElem?.mp member
  rw [cellsToPartition_eq valid here (inside u memberU),cellsToPartition_eq valid here (inside v memberV)]

private theorem makeLevels_spec (valid : Valid node_to_bisection_id s) (max_cell_sizes : List ℕ) : ∃ fuel levels,
    (∀ more ≥ fuel, makeLevels std node_to_bisection_id more max_cell_sizes s = some levels) ∧
      List.Forall₂ (fun max_cell_size level => Level node_to_bisection_id max_cell_size level.1 level.2) max_cell_sizes levels ∧
      levels.Pairwise (fun higher lower => Finer node_to_bisection_id.length lower.1 higher.1) ∧
      ∀ level ∈ levels, Finer node_to_bisection_id.length level.1 (cellsToPartition s) := by
  induction max_cell_sizes generalizing s with
  | nil => exact ⟨0,[],fun _ _ => rfl,List.Forall₂.nil,List.Pairwise.nil,by simp⟩
  | cons max_cell_size rest ih =>
    obtain ⟨s',first,valid',finer,stopped⟩ := partitionLevel_total std valid max_cell_size le_rfl
    obtain ⟨fuel,levels,ran,each,order,below⟩ := ih valid'
    refine ⟨max (totalWeight s) fuel,(cellsToPartition s',s'.cells.length) :: levels,fun more enough => ?_,
      List.Forall₂.cons (level_of_cells valid' stopped) each,pairwise_cons.mpr ⟨below,order⟩,?_⟩
    · have reached : partitionLevel std node_to_bisection_id max_cell_size more s = some s' :=
        whileLoop_mono first (by omega)
      rw [makeLevels,reached,bind_some,ran more (by omega)]
      rfl
    · have above := finer_of_refines valid valid' finer
      intro level member
      cases mem_cons.mp member with
      | inl here => exact here ▸ above
      | inr later => exact fun u insideU v insideV same => above u insideU v insideV (below level later u insideU v insideV same)

private theorem valid_start (some_node : node_to_bisection_id ≠ []) : Valid node_to_bisection_id
    ⟨List.range node_to_bisection_id.length,[⟨0,node_to_bisection_id.length,NUM_BISECTION_BITS - 1,false⟩]⟩ := by
  refine ⟨Perm.refl _,?_,pairwise_singleton _ _,fun i inside => ⟨_,mem_cons_self,Nat.zero_le i,inside⟩⟩
  intro cell member
  cases mem_singleton.mp member
  refine ⟨length_pos_iff.mpr some_node,by simp,by simp [NUM_BISECTION_BITS],fun u _ v _ i above => ?_,fun tabu => absurd tabu (by simp)⟩
  have high : 32 ≤ i := above
  rw [idBit,idBit,BitVec.getLsbD_of_ge _ _ high,BitVec.getLsbD_of_ge _ _ high]

end Cells

/-- Every assignment of ids gives nested levels without empty cells, each small enough for its level or of one id. -/
theorem bisectionToPartition_correct (std : StdPartition) (node_to_bisection_id : List BisectionID) (some_node : node_to_bisection_id ≠ [])
    (max_cell_sizes : List ℕ) : ∃ fuel partitions num_cells,
      (∀ more ≥ fuel, bisectionToPartition std node_to_bisection_id max_cell_sizes more = some (partitions,num_cells)) ∧
        partitions.length = max_cell_sizes.length ∧ num_cells.length = max_cell_sizes.length ∧
        PartitionBuild.Nested partitions node_to_bisection_id.length ∧
        ∀ (level : ℕ) partition count max_cell_size, partitions[level]? = some partition → num_cells[level]? = some count →
          max_cell_sizes[level]? = some max_cell_size → Level node_to_bisection_id max_cell_size partition count := by
  obtain ⟨fuel,levels,ran,each,order,_⟩ := makeLevels_spec std (valid_start some_node) max_cell_sizes.reverse
  have size : levels.length = max_cell_sizes.length := by rw [← each.length_eq,length_reverse]
  refine ⟨fuel,levels.reverse.map (·.1),levels.reverse.map (·.2),fun more enough => ?_,by simp [size],by simp [size],?_,?_⟩
  · rw [bisectionToPartition,ran more enough]
    rfl
  · rw [PartitionBuild.Nested,pairwise_map,pairwise_reverse]
    exact order
  · intro level partition count max_cell_size foundP foundC foundM
    rw [getElem?_map] at foundP foundC
    obtain ⟨entry,here,rfl⟩ := map_eq_some_iff.mp foundP
    rw [here] at foundC
    obtain rfl : entry.2 = count := by simpa using foundC
    have lowest : List.Forall₂ (fun max_cell_size level => Level node_to_bisection_id max_cell_size level.1 level.2)
        max_cell_sizes levels.reverse := by
      rwa [← forall₂_reverse_iff,reverse_reverse]
    obtain ⟨below,same⟩ := List.getElem?_eq_some_iff.mp here
    obtain ⟨below',same'⟩ := List.getElem?_eq_some_iff.mp foundM
    have level := lowest.get below' below
    simpa [same,same'] using level

private theorem filter_parts (p : NodeID → Bool) (l : List NodeID) : ∃ front back, l.filter p ++ l.filter (fun a => !p a) = front ++ back ∧
    (∀ a ∈ front, p a = true) ∧ ∀ a ∈ back, p a = false :=
  ⟨_,_,rfl,fun _ member => (mem_filter.mp member).2,fun _ member => by simpa using (mem_filter.mp member).2⟩

def stablePartition : StdPartition := ⟨fun p l => l.filter p ++ l.filter fun a => !p a,fun p l => filter_append_perm p l,filter_parts⟩

/-- Three nodes, two of them with one id, on two levels. -/
theorem bisectionToPartition_correct_three : ∃ fuel partitions num_cells,
    (∀ more ≥ fuel, bisectionToPartition stablePartition [1,6,1] [1,3] more = some (partitions,num_cells)) ∧
      partitions.length = 2 ∧ num_cells.length = 2 ∧ PartitionBuild.Nested partitions 3 ∧
      ∀ (level : ℕ) partition count max_cell_size, partitions[level]? = some partition → num_cells[level]? = some count →
        [1,3][level]? = some max_cell_size → Level [1,6,1] max_cell_size partition count :=
  bisectionToPartition_correct stablePartition [1,6,1] (by decide) [1,3]

end Osrm.BisectionPartition
