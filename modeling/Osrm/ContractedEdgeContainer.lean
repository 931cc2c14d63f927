import Osrm.QueryGraph
import Osrm.Loops
import Osrm.ForwardPass
import Mathlib.Data.List.Lex

/-!
`ContractedEdgeContainer`: the edges of several contractions of one graph, each with a set of
flags that says to which of them it belongs. A new list of edges is merged with the edges
that are there already; an edge that is found among them only sets a flag there.
-/
namespace Osrm.ContractedEdgeContainer
open List
open Typedefs QueryGraph

abbrev MergedFlags := BitVec 8
def ALL_FLAGS : MergedFlags := 0xFF

/-- The edges with their flags, and the number of lists that were merged. -/
structure Container where
  index : ℕ
  entries : List (QueryEdge × MergedFlags)

def lexBefore : List ℤ → List ℤ → Bool
  | [], _ => false
  | _ :: _, [] => false
  | a :: lhs, b :: rhs => a < b || a == b && lexBefore lhs rhs

/-- What `mergeCompare` compares. -/
def mergeKey (e : QueryEdge) : List ℤ :=
  [e.source,e.target,e.data.shortcut.toInt,e.data.turn_id,e.data.weight,e.data.duration,e.data.forward.toInt,
    e.data.backward.toInt]

def mergeCompare (lhs rhs : QueryEdge) : Bool := lexBefore (mergeKey lhs) (mergeKey rhs)
def mergable (lhs rhs : QueryEdge) : Bool := !mergeCompare lhs rhs && !mergeCompare rhs lhs

namespace Container

/-- `Insert`, into an empty container. -/
def Insert (new_edges : List QueryEdge) : Container := ⟨0,new_edges.map (·,ALL_FLAGS)⟩
def setFlag (allowed : Bool) (index : ℕ) (flags : MergedFlags) : MergedFlags :=
  if allowed then flags ||| BitVec.twoPow 8 index else flags &&& ~~~(BitVec.twoPow 8 index)
def Filter (container : Container) (filter : NodeID → Bool) (index : ℕ) : Container :=
  ⟨container.index,container.entries.map fun entry =>
    (entry.1,setFlag (filter entry.1.source && filter entry.1.target) index entry.2)⟩

/-- The pass of `Merge` over the new edges; `rest` holds the old edges from the iterator on. -/
def mergeScan (flag : MergedFlags) : List QueryEdge → List (QueryEdge × MergedFlags) →
    List (QueryEdge × MergedFlags) × List QueryEdge
  | [], rest => (rest,[])
  | edge :: new_edges, rest =>
    if rest.head?.all fun old => mergeCompare edge old.1 then
      let later := mergeScan flag new_edges rest
      (later.1,edge :: later.2)
    else
      let passed := rest.takeWhile fun old => mergeCompare old.1 edge
      match rest.dropWhile fun old => mergeCompare old.1 edge with
      | [] =>
        let later := mergeScan flag new_edges []
        (passed ++ later.1,edge :: later.2)
      | old :: behind =>
        if mergable edge old.1 then
          let later := mergeScan flag new_edges ((old.1,old.2 ||| flag) :: behind)
          (passed ++ later.1,later.2)
        else
          let later := mergeScan flag new_edges (old :: behind)
          (passed ++ later.1,edge :: later.2)

/-- The entries after `Merge` before they are sorted. -/
def mergeEntries (container : Container) (new_edges : List QueryEdge) : List (QueryEdge × MergedFlags) :=
  let scanned := mergeScan (BitVec.twoPow 8 container.index) new_edges container.entries
  scanned.1 ++ scanned.2.map (·,BitVec.twoPow 8 container.index)

/-- A possible result of `Merge`, whose sort may arrange equal edges freely. -/
structure Merge (container : Container) (new_edges : List QueryEdge) (after : Container) : Prop where
  index : after.index = container.index + 1
  perm : after.entries.Perm (container.mergeEntries new_edges)
  sorted : after.entries.Pairwise fun a b => mergeCompare b.1 a.1 = false

def MakeEdgeFilters (container : Container) : List (List Bool) :=
  (List.range container.index).map fun flag_index => container.entries.map fun entry => entry.2.getLsbD flag_index

end Container

/-! ### What the flags say -/

/-- Edges that `mergeCompare` cannot tell apart. -/
def Alike (a b : QueryEdge) : Prop := mergeKey a = mergeKey b
def HasFlag (entries : List (QueryEdge × MergedFlags)) (i : ℕ) (e : QueryEdge) : Prop :=
  ∃ flags, (e,flags) ∈ entries ∧ flags.getLsbD i = true

private theorem lexBefore_tie : ∀ {a b : List ℤ}, a.length = b.length → lexBefore a b = false →
    lexBefore b a = false → a = b
  | [], [], _, _, _ => rfl
  | x :: a, y :: b, same, one, two => by
    simp only [lexBefore,Bool.or_eq_false_iff,decide_eq_false_iff_not,Bool.and_eq_false_iff,
      beq_eq_false_iff_ne] at one two
    obtain rfl : x = y := by omega
    have tail : a = b := lexBefore_tie (by simpa using same) (by simpa using one.2) (by simpa using two.2)
    rw [tail]

variable {a b : QueryEdge}

private theorem mergable_alike (same : mergable a b = true) : Alike a b := by
  simp only [mergable,mergeCompare,Bool.and_eq_true,Bool.not_eq_true'] at same
  exact lexBefore_tie rfl same.1 same.2

theorem Alike.fields (alike : Alike a b) : a.source = b.source ∧ a.target = b.target ∧
    a.data.weight = b.data.weight ∧ a.data.forward = b.data.forward ∧ a.data.backward = b.data.backward := by
  simp only [Alike,mergeKey,List.cons.injEq,Nat.cast_inj] at alike
  obtain ⟨source,target,_,_,weight,_,forward,backward,_⟩ := alike
  refine ⟨source,target,weight,?_,?_⟩
  · cases one : a.data.forward <;> cases two : b.data.forward <;> simp_all [Bool.toInt]
  · cases one : a.data.backward <;> cases two : b.data.backward <;> simp_all [Bool.toInt]

variable {entries rest : List (QueryEdge × MergedFlags)} {new_edges : List QueryEdge} {e : QueryEdge} {i k : ℕ}

@[simp] theorem hasFlag_append : HasFlag (entries ++ rest) i e ↔ HasFlag entries i e ∨ HasFlag rest i e := by
  simp only [HasFlag,mem_append,or_and_right,exists_or]

@[simp] theorem hasFlag_cons {old : QueryEdge × MergedFlags} :
    HasFlag (old :: rest) i e ↔ (e = old.1 ∧ old.2.getLsbD i = true) ∨ HasFlag rest i e := by
  constructor
  · rintro ⟨flags,member,set⟩
    rcases mem_cons.mp member with rfl | later
    · exact .inl ⟨rfl,set⟩
    · exact .inr ⟨flags,later,set⟩
  · rintro (⟨rfl,set⟩ | ⟨flags,later,set⟩)
    · exact ⟨old.2,by simp,set⟩
    · exact ⟨flags,mem_cons_of_mem _ later,set⟩

/-- What a pass of `Merge` for the flag `k` does. -/
structure Scanned (k : ℕ) (new_edges : List QueryEdge) (rest after : List (QueryEdge × MergedFlags))
    (left : List QueryEdge) : Prop where
  others : ∀ i e, i ≠ k → (HasFlag after i e ↔ HasFlag rest i e)
  kept : ∀ e, HasFlag rest k e → HasFlag after k e
  origin : ∀ e, HasFlag after k e → HasFlag rest k e ∨ ∃ new ∈ new_edges, Alike e new
  found : ∀ new ∈ new_edges, new ∈ left ∨ ∃ e, HasFlag after k e ∧ Alike e new
  sub : ∀ e ∈ left, e ∈ new_edges

variable {left : List QueryEdge}

private theorem Scanned.keep {after : List (QueryEdge × MergedFlags)}
    (later : Scanned k new_edges rest after left) (edge : QueryEdge) :
    Scanned k (edge :: new_edges) rest after (edge :: left) := by
  refine ⟨later.others,later.kept,?_,?_,?_⟩
  · intro e flag
    refine (later.origin e flag).imp_right ?_
    rintro ⟨new,member,alike⟩
    exact ⟨new,mem_cons_of_mem _ member,alike⟩
  · intro new member
    rcases mem_cons.mp member with rfl | behind
    · exact .inl (by simp)
    · exact (later.found new behind).imp_left (mem_cons_of_mem _)
  · intro e member
    rcases mem_cons.mp member with rfl | behind
    · simp
    · exact mem_cons_of_mem _ (later.sub e behind)

private theorem Scanned.passed {after : List (QueryEdge × MergedFlags)}
    (later : Scanned k new_edges rest after left) (passed : List (QueryEdge × MergedFlags)) :
    Scanned k new_edges (passed ++ rest) (passed ++ after) left := by
  refine ⟨?_,?_,?_,?_,later.sub⟩
  · intro i e other
    rw [hasFlag_append,hasFlag_append,later.others i e other]
  · intro e flag
    rw [hasFlag_append] at flag ⊢
    exact flag.imp_right (later.kept e)
  · intro e flag
    rw [hasFlag_append] at flag ⊢
    rcases flag with before | behind
    · exact .inl (.inl before)
    · exact (later.origin e behind).imp_left .inr
  · intro new member
    refine (later.found new member).imp_right ?_
    rintro ⟨e,flag,alike⟩
    exact ⟨e,hasFlag_append.mpr (.inr flag),alike⟩

private theorem Scanned.hit {after : List (QueryEdge × MergedFlags)} {edge : QueryEdge}
    {old : QueryEdge × MergedFlags} (small : k < 8) (same : Alike edge old.1)
    (later : Scanned k new_edges ((old.1,old.2 ||| BitVec.twoPow 8 k) :: rest) after left) :
    Scanned k (edge :: new_edges) (old :: rest) after left := by
  have set : (old.2 ||| BitVec.twoPow 8 k).getLsbD k = true := by simp [small]
  refine ⟨?_,?_,?_,?_,fun e member => mem_cons_of_mem _ (later.sub e member)⟩
  · intro i e other
    rw [later.others i e other,hasFlag_cons,hasFlag_cons]
    simp [BitVec.getLsbD_or,BitVec.getLsbD_twoPow,Ne.symm other]
  · intro e flag
    refine later.kept e ?_
    rw [hasFlag_cons] at flag ⊢
    exact flag.imp_left fun here => ⟨here.1,set⟩
  · intro e flag
    rcases later.origin e flag with before | ⟨new,member,alike⟩
    · rw [hasFlag_cons] at before ⊢
      rcases before with ⟨rfl,_⟩ | behind
      · exact .inr ⟨edge,by simp,same.symm⟩
      · exact .inl (.inr behind)
    · exact .inr ⟨new,mem_cons_of_mem _ member,alike⟩
  · intro new member
    rcases mem_cons.mp member with rfl | behind
    · exact .inr ⟨old.1,later.kept _ (hasFlag_cons.mpr (.inl ⟨rfl,set⟩)),same.symm⟩
    · exact later.found new behind

private theorem mergeScan_scanned (small : k < 8) (new_edges : List QueryEdge) (rest : List (QueryEdge × MergedFlags)) :
    Scanned k new_edges rest (Container.mergeScan (BitVec.twoPow 8 k) new_edges rest).1
      (Container.mergeScan (BitVec.twoPow 8 k) new_edges rest).2 := by
  induction new_edges generalizing rest with
  | nil => exact ⟨fun _ _ _ => Iff.rfl,fun _ => id,fun _ => .inl,by simp,by simp [Container.mergeScan]⟩
  | cons edge new_edges ih =>
    rw [Container.mergeScan]
    split
    · exact (ih rest).keep edge
    · have whole := takeWhile_append_dropWhile (p := fun old : QueryEdge × MergedFlags => mergeCompare old.1 edge)
        (l := rest)
      dsimp only
      split
      · rename_i none_left
        rw [none_left] at whole
        have next := ((ih []).keep edge).passed (rest.takeWhile fun old => mergeCompare old.1 edge)
        rwa [whole] at next
      · rename_i old behind left
        rw [left] at whole
        split
        · rename_i same
          have next := (Scanned.hit small (mergable_alike same)
            (ih ((old.1,old.2 ||| BitVec.twoPow 8 k) :: behind))).passed
            (rest.takeWhile fun old => mergeCompare old.1 edge)
          rwa [whole] at next
        · have next := ((ih (old :: behind)).keep edge).passed (rest.takeWhile fun old => mergeCompare old.1 edge)
          rwa [whole] at next

variable {container after : Container}

private theorem Container.Merge.flags (merge : container.Merge new_edges after) (small : container.index < 8) :
    (∀ i e, i ≠ container.index → (HasFlag after.entries i e ↔ HasFlag container.entries i e)) ∧
      (∀ e, HasFlag after.entries container.index e →
        HasFlag container.entries container.index e ∨ ∃ new ∈ new_edges, Alike e new) ∧
      (∀ e, HasFlag container.entries container.index e → HasFlag after.entries container.index e) ∧
      ∀ new ∈ new_edges, ∃ e, HasFlag after.entries container.index e ∧ Alike e new := by
  have scanned := mergeScan_scanned small new_edges container.entries
  have permuted : ∀ i e, HasFlag after.entries i e ↔ HasFlag (container.mergeEntries new_edges) i e := by
    intro i e
    exact exists_congr fun flags => and_congr_left fun _ => merge.perm.mem_iff
  have appended : ∀ i e, HasFlag ((Container.mergeScan (BitVec.twoPow 8 container.index) new_edges container.entries).2.map
      (·,BitVec.twoPow 8 container.index)) i e ↔ i = container.index ∧
        e ∈ (Container.mergeScan (BitVec.twoPow 8 container.index) new_edges container.entries).2 := by
    intro i e
    constructor
    · rintro ⟨flags,member,set⟩
      obtain ⟨e',inside,same⟩ := mem_map.mp member
      obtain ⟨rfl,rfl⟩ := Prod.mk.inj same
      rw [BitVec.getLsbD_twoPow] at set
      simp only [Bool.and_eq_true,decide_eq_true_eq] at set
      exact ⟨set.2.symm,inside⟩
    · rintro ⟨rfl,inside⟩
      exact ⟨_,mem_map.mpr ⟨e,inside,rfl⟩,by simp [small]⟩
  simp only [permuted,Container.mergeEntries,hasFlag_append,appended]
  refine ⟨?_,?_,?_,?_⟩
  · intro i e other
    rw [scanned.others i e other]
    simp [other]
  · rintro e (flag | ⟨_,inside⟩)
    · exact scanned.origin e flag
    · exact .inr ⟨e,scanned.sub e inside,rfl⟩
  · exact fun e flag => .inl (scanned.kept e flag)
  · intro new member
    rcases scanned.found new member with left | ⟨e,flag,alike⟩
    · exact ⟨new,.inr ⟨trivial,left⟩,rfl⟩
    · exact ⟨e,.inl flag,alike⟩

private theorem Container.filter_flags (container : Container) (filter : NodeID → Bool) {index : ℕ} (small : index < 8) (i : ℕ)
    (e : QueryEdge) : HasFlag (container.Filter filter index).entries i e ↔
      if i = index then e ∈ container.entries.map (·.1) ∧ filter e.source = true ∧ filter e.target = true
      else HasFlag container.entries i e := by
  have written : ∀ (allowed : Bool) flags, (Container.setFlag allowed index flags).getLsbD i =
      if i = index then allowed else flags.getLsbD i := by
    intro allowed flags
    by_cases here : i = index
    · subst here
      cases allowed <;> simp [Container.setFlag,small]
    · cases allowed <;> simp [Container.setFlag,BitVec.getLsbD_twoPow,Ne.symm here,here]
      exact fun set => BitVec.lt_of_getLsbD set
  have entries : HasFlag (container.Filter filter index).entries i e ↔ ∃ flags, (e,flags) ∈ container.entries ∧
      (Container.setFlag (filter e.source && filter e.target) index flags).getLsbD i = true := by
    constructor
    · rintro ⟨flags,member,set⟩
      obtain ⟨entry,inside,same⟩ := mem_map.mp member
      obtain ⟨rfl,rfl⟩ := Prod.mk.inj same
      exact ⟨entry.2,inside,set⟩
    · rintro ⟨flags,inside,set⟩
      exact ⟨_,mem_map.mpr ⟨_,inside,rfl⟩,set⟩
  rw [entries]
  simp only [written]
  split
  · simp only [Bool.and_eq_true,exists_and_right,mem_map,Prod.exists,exists_eq_right]
  · rfl

/-! ### A whole sequence of calls -/

/-- `Filter` for every index in turn. -/
def Container.filterAll (container : Container) (filters : List (NodeID → Bool)) : Container :=
  filters.zipIdx.foldl (fun container filter => container.Filter filter.1 filter.2) container

/-- `Merge` for one list after the other. -/
inductive Merges : List (List QueryEdge) → Container → Container → Prop
  | nil (container : Container) : Merges [] container container
  | cons {new_edges : List QueryEdge} {lists : List (List QueryEdge)} {container middle after : Container}
      (first : container.Merge new_edges middle) (rest : Merges lists middle after) :
      Merges (new_edges :: lists) container after

/-- The stored edges for which a filter of `MakeEdgeFilters` is set. -/
def Container.edgesOf (container : Container) (i : ℕ) : List QueryEdge :=
  (((container.entries.map (·.1)).zip (container.MakeEdgeFilters.getD i [])).filter (·.2)).map (·.1)
def SameUpToMerging (lhs rhs : List QueryEdge) : Prop :=
  (∀ a ∈ lhs, ∃ b ∈ rhs, mergable a b = true) ∧ ∀ b ∈ rhs, ∃ a ∈ lhs, mergable a b = true

private theorem lexBefore_irrefl : ∀ a : List ℤ, lexBefore a a = false
  | [] => rfl
  | x :: a => by simp [lexBefore,lexBefore_irrefl a]

private theorem Alike.mergable (alike : Alike a b) : mergable a b = true := by
  unfold Alike at alike
  simp [ContractedEdgeContainer.mergable,mergeCompare,alike,lexBefore_irrefl]

theorem mem_edgesOf (known : i < container.index) : e ∈ container.edgesOf i ↔ HasFlag container.entries i e := by
  have flags : container.MakeEdgeFilters.getD i [] = container.entries.map fun entry => entry.2.getLsbD i := by
    simp [Container.MakeEdgeFilters,getD_eq_getElem?_getD,known]
  simp only [Container.edgesOf,flags,zip_map',mem_map,mem_filter]
  constructor
  · rintro ⟨p,⟨⟨entry,member,rfl⟩,set⟩,rfl⟩
    exact ⟨entry.2,member,set⟩
  · rintro ⟨flags,member,set⟩
    exact ⟨(e,flags.getLsbD i),⟨⟨(e,flags),member,rfl⟩,set⟩,rfl⟩

theorem filterAll_flags {filters : List (NodeID → Bool)} (few : filters.length ≤ 8) {filter : NodeID → Bool}
    (found : filters[i]? = some filter) :
    HasFlag (container.filterAll filters).entries i e ↔
      e ∈ container.entries.map (·.1) ∧ filter e.source = true ∧ filter e.target = true := by
  have index : ∀ p ∈ filters.zipIdx, p.2 < 8 ∧ filters[p.2]? = some p.1 := by
    intro p member
    have at_ := mem_zipIdx_iff_getElem?.mp member
    exact ⟨(List.getElem?_eq_some_iff.mp at_).1.trans_le few,at_⟩
  have done := Loops.foldl_invariant
    (fun done (now : Container) =>
      (∀ p ∈ done, p ∈ filters.zipIdx) ∧ now.entries.map (·.1) = container.entries.map (·.1) ∧
      ∀ p ∈ done, ∀ e, HasFlag now.entries p.2 e ↔
        e ∈ container.entries.map (·.1) ∧ p.1 e.source = true ∧ p.1 e.target = true)
    filters.zipIdx
    (by
      rintro done now p member ⟨known,entries,flags⟩
      have same : (now.Filter p.1 p.2).entries.map (·.1) = now.entries.map (·.1) := by
        simp [Container.Filter,Function.comp_def]
      have all : ∀ q ∈ done ++ [p], q ∈ filters.zipIdx := by
        intro q inside
        rcases mem_append.mp inside with old | new
        · exact known q old
        · exact mem_singleton.mp new ▸ member
      refine ⟨all,same.trans entries,?_⟩
      intro q inside e
      rw [now.filter_flags p.1 (index p member).1,entries]
      by_cases here : q.2 = p.2
      · have both := (index q (all q inside)).2.symm.trans (here ▸ (index p member).2)
        rw [if_pos here,Option.some.inj both]
      · rw [if_neg here]
        rcases mem_append.mp inside with old | new
        · exact flags q old e
        · exact absurd (congrArg Prod.snd (mem_singleton.mp new)) here)
    container ⟨by simp,rfl,by simp⟩
  exact done.2.2 (filter,i) (mem_zipIdx_iff_getElem?.mpr found) e

@[simp] theorem filterAll_index (filters : List (NodeID → Bool)) :
    (container.filterAll filters).index = container.index := by
  unfold Container.filterAll
  refine Loops.foldl_invariant (fun _ (now : Container) => now.index = container.index) _ ?_ _ rfl
  exact fun _ _ _ _ same => same

variable {lists : List (List QueryEdge)}

theorem Merges.flags (merges : Merges lists container after) (few : container.index + lists.length ≤ 8) :
    after.index = container.index + lists.length ∧
    (∀ i e, i < container.index → (HasFlag after.entries i e ↔ HasFlag container.entries i e)) ∧
    ∀ j new_edges, lists[j]? = some new_edges →
      (∀ e, HasFlag after.entries (container.index + j) e →
        HasFlag container.entries (container.index + j) e ∨ ∃ new ∈ new_edges, Alike e new) ∧
      (∀ e, HasFlag container.entries (container.index + j) e → HasFlag after.entries (container.index + j) e) ∧
      ∀ new ∈ new_edges, ∃ e, HasFlag after.entries (container.index + j) e ∧ Alike e new := by
  induction merges with
  | nil container => exact ⟨rfl,fun _ _ _ => Iff.rfl,by simp⟩
  | @cons new_edges lists container middle after first rest ih =>
    rw [length_cons] at few
    have index := first.index
    obtain ⟨total,earlier,later⟩ := ih (by omega)
    obtain ⟨others,origin,kept,new⟩ := first.flags (by omega)
    refine ⟨by rw [total,index,length_cons]; omega,?_,?_⟩
    · intro i e low
      rw [earlier i e (by omega),others i e (by omega)]
    · intro j edges found
      cases j with
      | zero =>
        obtain rfl : new_edges = edges := by simpa using found
        have same : ∀ e, HasFlag after.entries (container.index + 0) e ↔ HasFlag middle.entries container.index e :=
          fun e => earlier _ e (by omega)
        refine ⟨?_,?_,?_⟩
        · exact fun e flag => origin e ((same e).mp flag)
        · exact fun e flag => (same e).mpr (kept e flag)
        · intro edge member
          obtain ⟨e,flag,alike⟩ := new edge member
          exact ⟨e,(same e).mpr flag,alike⟩
      | succ j =>
        obtain ⟨origin',kept',new'⟩ := later j edges (by simpa using found)
        have position : middle.index + j = container.index + (j + 1) := by omega
        rw [position] at origin' kept' new'
        have same : ∀ e, HasFlag middle.entries (container.index + (j + 1)) e ↔
            HasFlag container.entries (container.index + (j + 1)) e := fun e => others _ e (by omega)
        refine ⟨?_,?_,new'⟩
        · exact fun e flag => (origin' e flag).imp_left (same e).mp
        · exact fun e flag => kept' e ((same e).mpr flag)

/-- A filter selects the inserted edges that its nodes allow and the edges that were merged for it. -/
theorem edgesOf_filtered_and_merged (inserted : List QueryEdge) {filters : List (NodeID → Bool)} (few : filters.length ≤ 8) (each : lists.length = filters.length) {after : Container}
    (merges : Merges lists ((Container.Insert inserted).filterAll filters) after) {i : ℕ} {filter : NodeID → Bool}
    (filtered : filters[i]? = some filter) {new_edges : List QueryEdge} (merged : lists[i]? = some new_edges) :
    SameUpToMerging (after.edgesOf i)
      ((inserted.filter fun e => filter e.source && filter e.target) ++ new_edges) := by
  have start : ((Container.Insert inserted).filterAll filters).index = 0 := filterAll_index filters
  obtain ⟨total,_,flags⟩ := merges.flags (by omega)
  obtain ⟨origin,kept,new⟩ := flags i new_edges merged
  have below : i < after.index := by
    have := (List.getElem?_eq_some_iff.mp filtered).1
    omega
  have base (e : QueryEdge) : HasFlag ((Container.Insert inserted).filterAll filters).entries i e ↔
      e ∈ inserted.filter fun e => filter e.source && filter e.target := by
    rw [filterAll_flags few filtered]
    simp [Container.Insert,Function.comp_def]
  rw [start,Nat.zero_add] at origin kept new
  constructor
  · intro e member
    rcases origin e ((mem_edgesOf below).mp member) with old | ⟨edge,inside,alike⟩
    · exact ⟨e,mem_append_left _ ((base e).mp old),Alike.mergable rfl⟩
    · exact ⟨edge,mem_append_right _ inside,alike.mergable⟩
  · intro e member
    rcases mem_append.mp member with old | inside
    · exact ⟨e,(mem_edgesOf below).mpr (kept e ((base e).mpr old)),Alike.mergable rfl⟩
    · obtain ⟨stored,flag,alike⟩ := new e inside
      exact ⟨stored,(mem_edgesOf below).mpr flag,alike.mergable⟩

/-- An inserted edge that the filter forbids comes back with the merged edges. -/
theorem edgesOf_edge_comes_back :
    let allowed : NodeID → Bool := fun u => u != 0
    let e : QueryEdge := ⟨0,1,⟨7,false,3,3,true,false,6⟩⟩
    let f : QueryEdge := ⟨1,2,⟨8,false,3,3,true,false,6⟩⟩
    Merges [[e,f]] ((Container.Insert [e]).filterAll [allowed]) ⟨1,[(e,0xFF),(f,1)]⟩ ∧
      SameUpToMerging (Container.edgesOf ⟨1,[(e,0xFF),(f,1)]⟩ 0)
        (([e].filter fun e => allowed e.source && allowed e.target) ++ [e,f]) := by
  intro allowed e f
  have merges : Merges [[e,f]] ((Container.Insert [e]).filterAll [allowed]) ⟨1,[(e,0xFF),(f,1)]⟩ :=
    .cons ⟨rfl,by decide,by decide⟩ (.nil _)
  exact ⟨merges,edgesOf_filtered_and_merged (i := 0) [e] (by decide) rfl merges rfl rfl⟩

/-! ### Whether edges are shared -/

def Unmergable (edges : List QueryEdge) : Prop := edges.Pairwise fun a b => mergable a b = false
def Container.edges (container : Container) : List QueryEdge := container.entries.map (·.1)

private theorem lexBefore_iff : ∀ {a b : List ℤ}, a.length = b.length → (lexBefore a b = true ↔ a < b)
  | [], [], _ => by simp [lexBefore]
  | x :: a, y :: b, same => by
    have tail := lexBefore_iff (a := a) (b := b) (by simpa using same)
    simp [lexBefore,cons_lt_cons_iff,tail]

private theorem mergeCompare_iff (a b : QueryEdge) : mergeCompare a b = true ↔ mergeKey a < mergeKey b := lexBefore_iff rfl
private theorem mergable_iff (a b : QueryEdge) : mergable a b = true ↔ mergeKey a = mergeKey b := ⟨mergable_alike,Alike.mergable⟩

private theorem unmergable_iff (edges : List QueryEdge) : Unmergable edges ↔ (edges.map mergeKey).Nodup := by
  rw [Unmergable,List.Nodup,pairwise_map]
  refine Pairwise.iff fun {a b} => ?_
  rw [← Bool.not_eq_true,mergable_iff]

private theorem mergeScan_forward (flag : MergedFlags) (new_edges : List QueryEdge) (rest : List (QueryEdge × MergedFlags)) :
    (Container.mergeScan flag new_edges rest).1.map (·.1) = rest.map (·.1) ∧
      (Container.mergeScan flag new_edges rest).2.map mergeKey =
        ForwardPass.unfound (new_edges.map mergeKey) (rest.map fun old => mergeKey old.1) := by
  induction new_edges generalizing rest with
  | nil => exact ⟨rfl,rfl⟩
  | cons edge new_edges ih =>
    have whole := congrArg (List.map (·.1)) (takeWhile_append_dropWhile
      (p := fun old : QueryEdge × MergedFlags => mergeCompare old.1 edge) (l := rest))
    have moved : ForwardPass.advance (rest.map fun old => mergeKey old.1) (mergeKey edge) =
        (rest.dropWhile fun old => mergeCompare old.1 edge).map fun old => mergeKey old.1 :=
      ForwardPass.advance_map _ _ (fun old => mergeCompare_iff old.1 edge) rest
    rw [Container.mergeScan,map_cons,ForwardPass.unfound,moved]
    dsimp only
    split
    · rename_i beyond
      have stays : (rest.dropWhile fun old => mergeCompare old.1 edge) = rest := by
        cases rest with
        | nil => rfl
        | cons old rest =>
          have less := (mergeCompare_iff edge old.1).mp (by simpa using beyond)
          refine dropWhile_cons_of_neg ?_
          rw [mergeCompare_iff]
          exact lt_asymm less
      have missing : (rest.map fun old => mergeKey old.1).head? ≠ some (mergeKey edge) := by
        cases rest with
        | nil => simp
        | cons old rest =>
          have less := (mergeCompare_iff edge old.1).mp (by simpa using beyond)
          simpa using ne_of_gt less
      rw [stays,if_neg missing]
      exact ⟨(ih rest).1,congrArg _ (ih rest).2⟩
    · split
      · rename_i none_left
        rw [none_left] at whole ⊢
        refine ⟨?_,congrArg _ (ih []).2⟩
        rw [map_append,(ih []).1,← whole,map_append]
      · rename_i old behind left
        rw [left] at whole ⊢
        rw [map_append] at whole
        have head : ((old :: behind).map fun old => mergeKey old.1).head? = some (mergeKey old.1) := rfl
        split
        · rename_i same
          rw [head,if_pos (congrArg some ((mergable_iff edge old.1).mp same).symm)]
          obtain ⟨entries,unfound⟩ := ih ((old.1,old.2 ||| flag) :: behind)
          refine ⟨?_,unfound⟩
          rw [map_append,entries]
          exact whole
        · rename_i other
          rw [head,if_neg fun same => other ((mergable_iff edge old.1).mpr (Option.some.inj same).symm)]
          refine ⟨?_,congrArg _ (ih (old :: behind)).2⟩
          rw [map_append,(ih (old :: behind)).1]
          exact whole

/-- A merge shares all equal edges if and only if every edge that is there already is greater than the new edges in front
    of it and than the old edges in front of its place. -/
theorem Container.Merge.unmergable_iff (merge : container.Merge new_edges after) (old : Unmergable container.edges)
    (new : Unmergable new_edges) :
    Unmergable after.edges ↔ ForwardPass.Aligned (container.edges.map mergeKey) (new_edges.map mergeKey) := by
  have distinct := (ContractedEdgeContainer.unmergable_iff _).mp old
  have distinct' := (ContractedEdgeContainer.unmergable_iff _).mp new
  obtain ⟨entries,unfound⟩ := mergeScan_forward (BitVec.twoPow 8 container.index) new_edges container.entries
  have keys : (after.edges.map mergeKey).Perm
      (container.edges.map mergeKey ++ ForwardPass.unfound (new_edges.map mergeKey) (container.edges.map mergeKey)) := by
    have edges := (merge.perm.map (·.1)).map mergeKey
    rw [Container.mergeEntries,map_append,entries,map_append,map_map (l := Prod.snd _)] at edges
    have plain := edges.trans (Perm.of_eq (congrArg (_ ++ List.map mergeKey ·) (map_id _)))
    rw [unfound] at plain
    rw [Container.edges,Container.edges,map_map (l := container.entries)]
    rwa [map_map (l := container.entries)] at plain
  rw [ContractedEdgeContainer.unmergable_iff,keys.nodup_iff,nodup_append',
    ← ForwardPass.unfound_disjoint_iff distinct distinct']
  constructor
  · exact fun parts key left common => parts.2.2 common left
  · exact fun all => ⟨distinct,distinct'.sublist (ForwardPass.unfound_sublist _ _),fun key common left => all key left common⟩

/-- `Insert`, and `Merge` for one list after the other, with the container after every call. -/
structure MergeRun (inserted : List QueryEdge) (lists : List (List QueryEdge)) (state : ℕ → Container) : Prop where
  start : state 0 = Container.Insert inserted
  step : ∀ i new_edges, lists[i]? = some new_edges → (state i).Merge new_edges (state (i + 1))

/-- The container never has two mergable edges exactly where each list is aligned with the edges it meets. -/
theorem merges_share {inserted : List QueryEdge} {state : ℕ → Container}
    (run : MergeRun inserted lists state) (first : Unmergable inserted) (each : ∀ new_edges ∈ lists, Unmergable new_edges) :
    (∀ i ≤ lists.length, Unmergable (state i).edges) ↔ ∀ i new_edges, lists[i]? = some new_edges →
      ForwardPass.Aligned ((state i).edges.map mergeKey) (new_edges.map mergeKey) := by
  constructor
  · intro always i new_edges here
    have inside := (List.getElem?_eq_some_iff.mp here).1
    have merge := run.step i new_edges here
    exact (merge.unmergable_iff (always i inside.le) (each new_edges (mem_of_getElem? here))).mp (always (i + 1) inside)
  · intro aligned i
    induction i with
    | zero =>
      intro _
      simpa [run.start,Container.Insert,Container.edges,Function.comp_def] using first
    | succ i ih =>
      intro inside
      have here := getElem?_eq_getElem inside
      have merge := run.step i lists[i] here
      exact (merge.unmergable_iff (ih (Nat.le_of_succ_le inside)) (each _ (getElem_mem _))).mpr (aligned i _ here)

/-- A list that shares an edge with the inserted ones. -/
theorem merges_share_edge :
    let e : QueryEdge := ⟨0,1,⟨7,false,3,3,true,false,6⟩⟩
    let f : QueryEdge := ⟨1,2,⟨8,false,3,3,true,false,6⟩⟩
    let state : ℕ → Container := fun i => if i = 0 then Container.Insert [e] else ⟨1,[(e,0xFF),(f,1)]⟩
    MergeRun [e] [[e,f]] state ∧ ∀ i ≤ 1, Unmergable (state i).edges := by
  intro e f state
  have run : MergeRun [e] [[e,f]] state := by
    refine ⟨rfl,fun i new_edges here => ?_⟩
    cases i with
    | zero =>
      obtain rfl : [e,f] = new_edges := by simpa using here
      exact ⟨rfl,by decide,by decide⟩
    | succ i => simp at here
  refine ⟨run,(merges_share run (pairwise_singleton _ _) ?_).mpr ?_⟩
  · intro new_edges member
    cases mem_singleton.mp member
    exact (unmergable_iff _).mpr (by decide)
  · intro i new_edges here
    cases i with
    | zero =>
      obtain rfl : [e,f] = new_edges := by simpa using here
      decide
    | succ i => simp at here

/-- Two edges between the same nodes, the heavier one in front. The other one is not found when the list is merged again. -/
theorem merge_keeps_twice :
    let heavy : QueryEdge := ⟨0,1,⟨7,false,2,2,true,false,6⟩⟩
    let light : QueryEdge := ⟨0,1,⟨6,false,1,1,false,true,6⟩⟩
    let state : ℕ → Container := fun i => if i = 0 then Container.Insert [heavy,light] else ⟨1,[(light,0xFF),(light,1),(heavy,0xFF)]⟩
    [heavy,light].Pairwise (fun a b => edgeBefore b a = false) ∧ Unmergable [heavy,light] ∧
      MergeRun [heavy,light] [[heavy,light]] state ∧ ¬ ∀ i ≤ 1, Unmergable (state i).edges := by
  intro heavy light state
  refine ⟨by decide,(unmergable_iff _).mpr (by decide),⟨rfl,fun i new_edges here => ?_⟩,fun always => ?_⟩
  · cases i with
    | zero =>
      obtain rfl : [heavy,light] = new_edges := by simpa using here
      exact ⟨rfl,by decide,by decide⟩
    | succ i => simp at here
  · have twice := (unmergable_iff _).mp (always 1 le_rfl)
    exact absurd twice (by decide)

end Osrm.ContractedEdgeContainer
