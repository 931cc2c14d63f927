import Osrm.MapMatching

/-!
The sub-matchings of `routing_algorithms::mapMatching`. The last point of a range that is not broken is found by going
back, the first one by going forth; from the most likely candidate of the last point the parents lead to the first
one.
-/
namespace Osrm.SubMatchings
open List Option
open HiddenMarkovModel MapMatching
variable {P : LogProbabilities}

structure SubMatching where
  indices : List ℕ
  nodes : List ℕ
  alternatives_count : List ℕ

section Reconstruction
variable (trace : Trace P) (model : HMM P)

/-- `parent_timestamp_index` goes back over the broken points. -/
def lastUnbroken (first : ℕ) : ℕ → ℕ → Option ℕ
  | 0,_ => none
  | fuel + 1,t =>
    if first ≤ t then
      if t < trace.candidates.length then
        if model.breakage t then lastUnbroken first fuel ((t + 2 ^ 64 - 1) % 2 ^ 64) else some t
      else none
    else some t

/-- `sub_matching_begin` goes forth over the broken points. -/
def firstUnbroken (last : ℕ) : ℕ → ℕ → Option ℕ
  | 0,_ => none
  | fuel + 1,t =>
    if t < last then
      if t < trace.candidates.length then
        if model.breakage t then firstUnbroken last fuel (t + 1) else some t
      else none
    else some t

/-- `std::max_element`, which gives the first place of an empty range. -/
def maxElement (values : ℕ → P.Value) (size : ℕ) : ℕ :=
  (List.range size).foldl (fun largest s => if P.lt (values largest) (values s) then s else largest) 0
def setReachable (viterbi_reachable : ℕ → ℕ → Bool) (t s : ℕ) : Option (ℕ → ℕ → Bool) :=
  if s < trace.size t then some (assign viterbi_reachable t s true) else none

/-- The loop along the parents; the point where it stops is put in front, also where a candidate is its own parent. -/
def backtrack (first : ℕ) : ℕ → ℕ → ℕ → List (ℕ × ℕ) → (ℕ → ℕ → Bool) → Option (List (ℕ × ℕ) × (ℕ → ℕ → Bool))
  | 0,_,_,_,_ => none
  | fuel + 1,t,s,points,viterbi_reachable =>
    (setReachable trace viterbi_reachable t s).bind fun viterbi_reachable =>
      if first < t then
        if t = (model.parents t s).1 then some ((t,s) :: (t,s) :: points,viterbi_reachable)
        else backtrack first fuel (model.parents t s).1 (model.parents t s).2 ((t,s) :: points) viterbi_reachable
      else some ((t,s) :: points,viterbi_reachable)

/-- The loop that fills the reachability along the parents of one candidate. -/
def fillReachable (first : ℕ) : ℕ → ℕ → ℕ → (ℕ → ℕ → Bool) → Option (ℕ → ℕ → Bool)
  | 0,_,_,_ => none
  | fuel + 1,t,s,viterbi_reachable =>
    if first < t then
      if s < trace.size t then
        if viterbi_reachable t s || model.pruned t s then setReachable trace viterbi_reachable t s
        else fillReachable first fuel (model.parents t s).1 (model.parents t s).2 (assign viterbi_reachable t s true)
      else none
    else setReachable trace viterbi_reachable t s

def alternatives (viterbi_reachable : ℕ → ℕ → Bool) (point : ℕ × ℕ) : Option ℕ :=
  if point.2 < trace.size point.1 then some ((List.range (trace.size point.1)).countP (viterbi_reachable point.1) - 1) else none

/-- One range between two split points. -/
def subMatching (fuel sub_matching_begin sub_matching_end : ℕ) (viterbi_reachable : ℕ → ℕ → Bool) :
    Option ((ℕ → ℕ → Bool) × Option SubMatching) :=
  (lastUnbroken trace model sub_matching_begin fuel ((sub_matching_end + 2 ^ 64 - 1) % 2 ^ 64)).bind fun t =>
    (firstUnbroken trace model sub_matching_end fuel sub_matching_begin).bind fun first =>
      if (t + 2 ^ 64 - first + 1) % 2 ^ 64 < 2 then some (viterbi_reachable,none)
      else if t < trace.candidates.length then
        (backtrack trace model first fuel t (maxElement (model.viterbi t) (trace.size t)) [] viterbi_reachable).bind
          fun (points,viterbi_reachable) =>
            if points.length < 2 then some (viterbi_reachable,none)
            else
              ((List.range (trace.size t)).foldlM (fun viterbi_reachable s => fillReachable trace model first fuel t s viterbi_reachable)
                viterbi_reachable).bind fun viterbi_reachable =>
                (points.mapM (alternatives trace viterbi_reachable)).map fun counts =>
                  (viterbi_reachable,some ⟨points.map Prod.fst,points.map Prod.snd,counts⟩)
      else none

def subMatchings (fuel : ℕ) : ℕ → List ℕ → (ℕ → ℕ → Bool) → Option (List SubMatching)
  | _,[],_ => some []
  | sub_matching_begin,sub_matching_end :: rest,viterbi_reachable =>
    (subMatching trace model fuel sub_matching_begin sub_matching_end viterbi_reachable).bind fun (viterbi_reachable,matching) =>
      (subMatchings fuel sub_matching_end rest viterbi_reachable).map (matching.toList ++ ·)

end Reconstruction

/-- The sub-matchings of a trace, with the model that they were read from. -/
def mapMatching (trace : Trace P) (fuel : ℕ) : Option (HMM P × List SubMatching) :=
  let started := Initialize trace 0 (cleared P)
  if started.2 = INVALID_STATE then some (started.1,[])
  else
    (mainLoop trace fuel (started.2 + 1) ⟨started.1,INVALID_STATE,[],[started.2]⟩).bind fun s =>
      (subMatchings trace s.model fuel started.2 (allSplitPoints s) s.model.viterbi_reachable).map fun matchings => (s.model,matchings)

variable {trace : Trace P} {model : HMM P} {first b t s last : ℕ}

theorem lastUnbroken_spec (low : first ≤ b) (le : b ≤ t) (inside : t < trace.candidates.length) (small : trace.candidates.length < 2 ^ 64)
    (unbroken : model.breakage b = false) :
    ∃ found, (∀ fuel, t < fuel → lastUnbroken trace model first fuel t = some found) ∧ b ≤ found ∧ found ≤ t ∧
      model.breakage found = false := by
  induction t, le using Nat.le_induction with
  | base =>
    refine ⟨b,fun fuel enough => ?_,le_rfl,le_rfl,unbroken⟩
    obtain ⟨fuel,rfl⟩ := Nat.exists_eq_add_one.mpr (Nat.zero_lt_of_lt enough)
    rw [lastUnbroken,if_pos low,if_pos inside,unbroken,if_neg Bool.false_ne_true]
  | succ t le ih =>
    cases broken : model.breakage (t + 1) with
    | false =>
      refine ⟨t + 1,fun fuel enough => ?_,by omega,le_rfl,broken⟩
      obtain ⟨fuel,rfl⟩ := Nat.exists_eq_add_one.mpr (Nat.zero_lt_of_lt enough)
      rw [lastUnbroken,if_pos (by omega),if_pos inside,broken,if_neg Bool.false_ne_true]
    | true =>
      obtain ⟨found,ran,above,below,facts⟩ := ih (by omega)
      refine ⟨found,fun fuel enough => ?_,above,by omega,facts⟩
      obtain ⟨fuel,rfl⟩ := Nat.exists_eq_add_one.mpr (Nat.zero_lt_of_lt enough)
      rw [lastUnbroken,if_pos (by omega),if_pos inside,broken,if_pos rfl,show (t + 1 + 2 ^ 64 - 1) % 2 ^ 64 = t by omega]
      exact ran fuel (by omega)

theorem firstUnbroken_spec (low : first ≤ b) (below : b < last) (inside : b < trace.candidates.length)
    (broken : ∀ t, first ≤ t → t < b → model.breakage t = true) (unbroken : model.breakage b = false) (fuel : ℕ) (enough : b < fuel + first) :
    firstUnbroken trace model last fuel first = some b := by
  induction fuel generalizing first with
  | zero => omega
  | succ fuel ih =>
    rw [firstUnbroken,if_pos (by omega),if_pos (by omega)]
    rcases Nat.eq_or_lt_of_le low with rfl | before
    · rw [unbroken,if_neg Bool.false_ne_true]
    · rw [broken first le_rfl before,if_pos rfl]
      exact ih (by omega) (fun t after => broken t (by omega)) (by omega)

private theorem maxElement_spec (values : ℕ → P.Value) (size : ℕ)
    (either : ∀ s, values s = P.IMPOSSIBLE_LOG_PROB ∨ P.lt P.IMPOSSIBLE_LOG_PROB (values s) = true) :
    ∀ s < size, P.lt P.IMPOSSIBLE_LOG_PROB (values s) = true → P.lt P.IMPOSSIBLE_LOG_PROB (values (maxElement values size)) = true := by
  unfold maxElement
  induction size with
  | zero => simp
  | succ k ih =>
    rw [range_succ,foldl_append]
    generalize (List.range k).foldl (fun largest s => if P.lt (values largest) (values s) then s else largest) 0 = largest at ih
    simp only [foldl_cons,foldl_nil]
    by_cases more : P.lt (values largest) (values k) = true
    · rw [if_pos more]
      refine fun _ _ _ => (either k).resolve_left fun none => ?_
      rw [none,P.not_lt_impossible] at more
      exact Bool.noConfusion more
    · rw [if_neg more]
      intro s below possible
      rcases Nat.eq_or_lt_of_le (Nat.le_of_lt_succ below) with rfl | less
      · exact (either largest).resolve_left fun none => more (by rw [none]; exact possible)
      · exact ih s less possible

private theorem maxElement_lt (values : ℕ → P.Value) {size : ℕ} (some_candidate : 0 < size) : maxElement values size < size := by
  have bound : maxElement values size < size ∨ maxElement values size = 0 := by
    unfold maxElement
    clear some_candidate
    induction size with
    | zero => exact .inr rfl
    | succ k ih =>
      rw [range_succ,foldl_append]
      simp only [foldl_cons,foldl_nil]
      split <;> omega
  omega

/-- Points with candidates that are not pruned, each the parent of the next one. -/
structure Path (trace : Trace P) (model : HMM P) (b last : ℕ) (points : List (ℕ × ℕ)) : Prop where
  linked : points.IsChain fun a a' => a.1 < a'.1 ∧ model.parents a'.1 a'.2 = a
  chosen : ∀ point ∈ points, b ≤ point.1 ∧ point.1 < last ∧ point.2 < trace.size point.1 ∧ model.pruned point.1 point.2 = false

theorem path_maxElement (segment : Segment trace model first b last) (above : b < t) (below : t < last) (unbroken : model.breakage t = false) :
    Path trace model b last [(t,maxElement (model.viterbi t) (trace.size t))] := by
  have reached := segment.reached t above below
  have sound := segment.sound t above.le below
  have either : ∀ s, model.viterbi t s = P.IMPOSSIBLE_LOG_PROB ∨ P.lt P.IMPOSSIBLE_LOG_PROB (model.viterbi t s) = true := by
    intro s
    cases mark : model.pruned t s with
    | true => exact .inl (reached.impossible s mark)
    | false => exact .inr (reached.possible s mark)
  obtain ⟨candidate,live⟩ := sound.broken.mp unbroken
  have inside := (sound.inside candidate live).1
  have possible := maxElement_spec (model.viterbi t) (trace.size t) either candidate inside (reached.possible candidate live)
  have best := maxElement_lt (model.viterbi t) (Nat.zero_lt_of_lt inside)
  have alive : model.pruned t (maxElement (model.viterbi t) (trace.size t)) = false := by
    by_contra pruned
    rw [Bool.not_eq_false] at pruned
    rw [reached.impossible _ pruned,P.not_lt_impossible] at possible
    exact Bool.noConfusion possible
  refine ⟨isChain_singleton _,fun point member => ?_⟩
  cases mem_singleton.mp member
  exact ⟨above.le,below,best,alive⟩

theorem Path.parent (segment : Segment trace model first b last) {points : List (ℕ × ℕ)} (path : Path trace model b last ((t,s) :: points))
    (more : b < t) : (model.parents t s).1 < t ∧ Path trace model b last (model.parents t s :: (t,s) :: points) := by
  obtain ⟨_,below,_,live⟩ := path.chosen (t,s) mem_cons_self
  dsimp only at below live
  obtain ⟨low,less,alive⟩ := (segment.reached t more below).parent s live
  have inside := ((segment.sound _ low (by omega)).inside _ alive).1
  refine ⟨less,List.IsChain.cons_cons ⟨less,rfl⟩ path.linked,fun point member => ?_⟩
  cases mem_cons.mp member with
  | inl here => exact here ▸ ⟨low,by omega,inside,alive⟩
  | inr later => exact path.chosen point later

private theorem backtrack_spec (segment : Segment trace model first b last) {points : List (ℕ × ℕ)} (viterbi_reachable : ℕ → ℕ → Bool)
    (path : Path trace model b last ((t,s) :: points)) :
    ∃ found reachable, (∀ fuel, t < fuel → backtrack trace model b fuel t s points viterbi_reachable = some (found,reachable)) ∧
      Path trace model b last found ∧ points.length + (if b < t then 2 else 1) ≤ found.length := by
  induction t using Nat.strong_induction_on generalizing s points viterbi_reachable with
  | _ t ih =>
    obtain ⟨_,_,candidate,_⟩ := path.chosen (t,s) mem_cons_self
    have set : setReachable trace viterbi_reachable t s = some (assign viterbi_reachable t s true) := if_pos candidate
    by_cases more : b < t
    · obtain ⟨less,longer⟩ := path.parent segment more
      obtain ⟨found,reachable,ran,whole,size⟩ := ih (model.parents t s).1 less (assign viterbi_reachable t s true) longer
      refine ⟨found,reachable,fun fuel enough => ?_,whole,?_⟩
      · obtain ⟨fuel,rfl⟩ := Nat.exists_eq_add_one.mpr (Nat.zero_lt_of_lt enough)
        rw [backtrack,set,bind_some,if_pos more,if_neg (by omega)]
        exact ran fuel (by omega)
      · rw [if_pos more]
        rw [length_cons] at size
        split at size <;> omega
    · refine ⟨(t,s) :: points,assign viterbi_reachable t s true,fun fuel enough => ?_,path,?_⟩
      · obtain ⟨fuel,rfl⟩ := Nat.exists_eq_add_one.mpr (Nat.zero_lt_of_lt enough)
        rw [backtrack,set,bind_some,if_neg more]
      · rw [if_neg more,length_cons]

private theorem fillReachable_spec (segment : Segment trace model first b last) (low : b ≤ t) (high : t < last) (candidate : s < trace.size t)
    (viterbi_reachable : ℕ → ℕ → Bool) :
    ∃ reachable, ∀ fuel, t < fuel → fillReachable trace model b fuel t s viterbi_reachable = some reachable := by
  induction t using Nat.strong_induction_on generalizing s viterbi_reachable with
  | _ t ih =>
    have set : setReachable trace viterbi_reachable t s = some (assign viterbi_reachable t s true) := if_pos candidate
    by_cases more : b < t
    · cases stops : viterbi_reachable t s || model.pruned t s with
      | true =>
        refine ⟨assign viterbi_reachable t s true,fun fuel enough => ?_⟩
        obtain ⟨fuel,rfl⟩ := Nat.exists_eq_add_one.mpr (Nat.zero_lt_of_lt enough)
        rw [fillReachable,if_pos more,if_pos candidate,stops,if_pos rfl,set]
      | false =>
        obtain ⟨_,live⟩ := Bool.or_eq_false_iff.mp stops
        obtain ⟨above,less,alive⟩ := (segment.reached t more high).parent s live
        have inside := ((segment.sound _ above (by omega)).inside _ alive).1
        obtain ⟨reachable,ran⟩ := ih (model.parents t s).1 less above (by omega) inside (assign viterbi_reachable t s true)
        refine ⟨reachable,fun fuel enough => ?_⟩
        obtain ⟨fuel,rfl⟩ := Nat.exists_eq_add_one.mpr (Nat.zero_lt_of_lt enough)
        rw [fillReachable,if_pos more,if_pos candidate,stops,if_neg Bool.false_ne_true]
        exact ran fuel (by omega)
    · refine ⟨assign viterbi_reachable t s true,fun fuel enough => ?_⟩
      obtain ⟨fuel,rfl⟩ := Nat.exists_eq_add_one.mpr (Nat.zero_lt_of_lt enough)
      rw [fillReachable,if_neg more,set]

private theorem foldlM_fillReachable (segment : Segment trace model first b last) (low : b ≤ t) (high : t < last) (candidates : List ℕ)
    (inside : ∀ s ∈ candidates, s < trace.size t) (viterbi_reachable : ℕ → ℕ → Bool) : ∃ reachable, ∀ fuel, t < fuel →
      candidates.foldlM (fun viterbi_reachable s => fillReachable trace model b fuel t s viterbi_reachable) viterbi_reachable = some reachable := by
  induction candidates generalizing viterbi_reachable with
  | nil => exact ⟨viterbi_reachable,fun _ _ => rfl⟩
  | cons s rest ih =>
    obtain ⟨next,ran⟩ := fillReachable_spec segment low high (inside s mem_cons_self) viterbi_reachable
    obtain ⟨reachable,later⟩ := ih (fun s member => inside s (mem_cons_of_mem _ member)) next
    refine ⟨reachable,fun fuel enough => ?_⟩
    rw [foldlM_cons,ran fuel enough]
    exact later fuel enough

private theorem mapM_alternatives (points : List (ℕ × ℕ)) (viterbi_reachable : ℕ → ℕ → Bool)
    (inside : ∀ point ∈ points, point.2 < trace.size point.1) : ∃ counts, points.mapM (alternatives trace viterbi_reachable) = some counts := by
  induction points with
  | nil => exact ⟨[],rfl⟩
  | cons point rest ih =>
    obtain ⟨counts,found⟩ := ih fun point member => inside point (mem_cons_of_mem _ member)
    rw [mapM_cons,alternatives,if_pos (inside point mem_cons_self),found]
    exact ⟨_,rfl⟩

/-! ### The sub-matchings -/

/-- A sub-matching of at least two points, which lie in a range. -/
structure WellBuilt (trace : Trace P) (model : HMM P) (first last : ℕ) (matching : SubMatching) : Prop where
  two : 2 ≤ matching.indices.length
  nodes : matching.nodes.length = matching.indices.length
  path : Path trace model first last (matching.indices.zip matching.nodes)

private theorem subMatching_segment (segment : Segment trace model first b last) (small : trace.candidates.length < 2 ^ 64)
    (viterbi_reachable : ℕ → ℕ → Bool) : ∃ reachable matching,
      (∀ fuel, trace.candidates.length < fuel →
        subMatching trace model fuel first last viterbi_reachable = some (reachable,matching)) ∧
      ∀ m, matching = some m → WellBuilt trace model first last m := by
  obtain ⟨low,below,bound⟩ := segment.order
  obtain ⟨t,goneBack,above,le,unbroken⟩ :=
    lastUnbroken_spec low (show b ≤ last - 1 by omega) (by omega) small segment.unbroken
  have goneForth : ∀ fuel, trace.candidates.length < fuel → firstUnbroken trace model last fuel first = some b := fun fuel enough =>
    firstUnbroken_spec low below (by omega) segment.broken segment.unbroken fuel (by omega)
  have wrapped : (last + 2 ^ 64 - 1) % 2 ^ 64 = last - 1 := by omega
  have apart : (t + 2 ^ 64 - b + 1) % 2 ^ 64 < 2 ↔ t = b := by omega
  by_cases alone : t = b
  · refine ⟨viterbi_reachable,none,fun fuel enough => ?_,fun m none => by simp at none⟩
    rw [subMatching,wrapped,goneBack fuel (by omega),bind_some,goneForth fuel enough,bind_some,if_pos (apart.mpr alone)]
  have start := path_maxElement segment (show b < t by omega) (by omega) unbroken
  generalize chosen : maxElement (model.viterbi t) (trace.size t) = s at start
  obtain ⟨points,reachable,wayBack,path,size⟩ := backtrack_spec segment viterbi_reachable start
  rw [if_pos (by omega),length_nil] at size
  obtain ⟨filled,fills⟩ := foldlM_fillReachable segment above (by omega) (List.range (trace.size t))
    (fun s member => mem_range.mp member) reachable
  obtain ⟨counts,counted⟩ := mapM_alternatives points filled fun point member => (path.chosen point member).2.2.1
  refine ⟨filled,some ⟨points.map Prod.fst,points.map Prod.snd,counts⟩,fun fuel enough => ?_,fun m same => ?_⟩
  · rw [subMatching,wrapped,goneBack fuel (by omega),bind_some,goneForth fuel enough,bind_some,
      if_neg (by rw [apart]; exact alone),if_pos (by omega),chosen,wayBack fuel (by omega),bind_some]
    dsimp only
    rw [if_neg (by omega),fills fuel (by omega),bind_some,counted]
    rfl
  · cases same
    have zipped : (points.map Prod.fst).zip (points.map Prod.snd) = points := by simp [zip_map']
    refine ⟨by rw [length_map]; omega,by rw [length_map,length_map],?_⟩
    dsimp only
    rw [zipped]
    exact ⟨path.linked,fun point member => (path.chosen point member).imp_left low.trans⟩

theorem subMatching_behind {p : ℕ} (behind : p + 1 ≤ first) (some_candidate : 0 < trace.size p) (small : trace.candidates.length < 2 ^ 64)
    (viterbi_reachable : ℕ → ℕ → Bool) : ∃ reachable, ∀ fuel, trace.candidates.length < fuel →
      subMatching trace model fuel first (p + 1) viterbi_reachable = some (reachable,none) := by
  have inside : p < trace.candidates.length := by
    by_contra outside
    rw [Trace.size,getD_eq_getElem?_getD,getElem?_eq_none (by omega)] at some_candidate
    exact lt_irrefl 0 some_candidate
  have best := maxElement_lt (model.viterbi p) some_candidate
  by_cases alone : (p + 2 ^ 64 - first + 1) % 2 ^ 64 < 2
  · refine ⟨viterbi_reachable,fun fuel enough => ?_⟩
    obtain ⟨fuel,rfl⟩ := Nat.exists_eq_add_one.mpr (Nat.zero_lt_of_lt enough)
    rw [subMatching,show (p + 1 + 2 ^ 64 - 1) % 2 ^ 64 = p by omega,lastUnbroken,if_neg (by omega),bind_some,
      firstUnbroken,if_neg (by omega),bind_some,if_pos alone]
  · refine ⟨assign viterbi_reachable p (maxElement (model.viterbi p) (trace.size p)) true,fun fuel enough => ?_⟩
    obtain ⟨fuel,rfl⟩ := Nat.exists_eq_add_one.mpr (Nat.zero_lt_of_lt enough)
    rw [subMatching,show (p + 1 + 2 ^ 64 - 1) % 2 ^ 64 = p by omega,lastUnbroken,if_neg (by omega),bind_some,
      firstUnbroken,if_neg (by omega),bind_some,if_neg alone,if_pos inside,backtrack,setReachable,if_pos best,bind_some,
      if_neg (by omega),bind_some]
    rfl

/-- Sub-matchings that are well formed and follow one another. -/
structure WellFormed (trace : Trace P) (model : HMM P) (matchings : List SubMatching) : Prop where
  two : ∀ m ∈ matchings, 2 ≤ m.indices.length ∧ m.nodes.length = m.indices.length
  increasing : (matchings.flatMap SubMatching.indices).Pairwise (· < ·)
  chosen : ∀ m ∈ matchings, ∀ point ∈ m.indices.zip m.nodes, point.1 < trace.candidates.length ∧ point.2 < trace.size point.1 ∧
    model.pruned point.1 point.2 = false
  linked : ∀ m ∈ matchings, (m.indices.zip m.nodes).IsChain fun a a' => model.parents a'.1 a'.2 = a

private theorem wellFormed_nil : WellFormed trace model [] := ⟨by simp,List.Pairwise.nil,by simp,by simp⟩

private theorem WellBuilt.indices {m : SubMatching} (built : WellBuilt trace model first last m) :
    m.indices.Pairwise (· < ·) ∧ ∀ i ∈ m.indices, first ≤ i ∧ i < last := by
  have points : (m.indices.zip m.nodes).map Prod.fst = m.indices := map_fst_zip built.nodes.ge
  constructor
  · rw [← points,← isChain_iff_pairwise,isChain_map]
    exact built.path.linked.imp fun _ _ step => step.1
  · intro i member
    rw [← points] at member
    obtain ⟨point,inside,rfl⟩ := mem_map.mp member
    exact (built.path.chosen point inside).imp_right And.left

private theorem wellFormed_append {matching : Option SubMatching} {matchings : List SubMatching} (bound : last ≤ trace.candidates.length)
    (built : ∀ m, matching = some m → WellBuilt trace model first last m) (rest : WellFormed trace model matchings)
    (later : ∀ i ∈ matchings.flatMap SubMatching.indices, last ≤ i) : WellFormed trace model (matching.toList ++ matchings) ∧
      (first ≤ last → ∀ i ∈ (matching.toList ++ matchings).flatMap SubMatching.indices, first ≤ i) := by
  cases matching with
  | none => exact ⟨rest,fun order i member => order.trans (later i member)⟩
  | some m =>
    have here := built m rfl
    obtain ⟨increasing,range⟩ := here.indices
    rw [toList_some,singleton_append,flatMap_cons]
    refine ⟨⟨?_,?_,?_,?_⟩,fun order i member => ?_⟩
    · exact forall_mem_cons.mpr ⟨⟨here.two,here.nodes⟩,rest.two⟩
    · rw [flatMap_cons]
      refine pairwise_append.mpr ⟨increasing,rest.increasing,fun i memberI j memberJ => ?_⟩
      exact (range i memberI).2.trans_le (later j memberJ)
    · refine forall_mem_cons.mpr ⟨fun point member => ?_,rest.chosen⟩
      obtain ⟨_,below,candidate,live⟩ := here.path.chosen point member
      exact ⟨below.trans_le bound,candidate,live⟩
    · exact forall_mem_cons.mpr ⟨here.path.linked.imp fun _ _ step => step.2,rest.linked⟩
    · cases mem_append.mp member with
      | inl mine => exact (range i mine).1
      | inr other => exact order.trans (later i other)

private theorem subMatchings_spec (small : trace.candidates.length < 2 ^ 64) (splits tail : List ℕ) (segments : Segments trace model first splits)
    (ends : tail = [] ∨ ∃ p, tail = [p + 1] ∧ p + 1 ≤ splits.getLastD first ∧ 0 < trace.size p) (viterbi_reachable : ℕ → ℕ → Bool) :
    ∃ matchings, (∀ fuel, trace.candidates.length < fuel →
        subMatchings trace model fuel first (splits ++ tail) viterbi_reachable = some matchings) ∧
      WellFormed trace model matchings ∧ ∀ i ∈ matchings.flatMap SubMatching.indices, first ≤ i := by
  induction splits generalizing first viterbi_reachable with
  | nil =>
    refine ⟨[],fun fuel enough => ?_,wellFormed_nil,by simp⟩
    cases ends with
    | inl none => rw [none]; rfl
    | inr behind =>
      obtain ⟨p,rfl,order,some_candidate⟩ := behind
      rw [getLastD_nil] at order
      obtain ⟨reachable,ran⟩ : ∃ reachable, ∀ fuel, trace.candidates.length < fuel →
          subMatching trace model fuel first (p + 1) viterbi_reachable = some (reachable,none) :=
        subMatching_behind order some_candidate small viterbi_reachable
      rw [nil_append,subMatchings,ran fuel enough]
      rfl
  | cons last rest ih =>
    obtain ⟨⟨b,segment⟩,segments'⟩ := segments
    obtain ⟨reachable,matching,ran,built⟩ := subMatching_segment segment small viterbi_reachable
    rw [getLastD_cons] at ends
    obtain ⟨matchings,later,wellFormed,above⟩ := ih segments' ends reachable
    obtain ⟨low,below,bound⟩ := segment.order
    obtain ⟨whole,range⟩ := wellFormed_append bound built wellFormed above
    refine ⟨matching.toList ++ matchings,fun fuel enough => ?_,whole,range (by omega)⟩
    rw [cons_append,subMatchings,ran fuel enough,bind_some]
    dsimp only
    rw [later fuel enough]
    rfl

theorem initialize_cleared (trace : Trace P) : (Initialize trace 0 (cleared P)).2 = INVALID_STATE ∨
    Started trace 0 (Initialize trace 0 (cleared P)).1 (Initialize trace 0 (cleared P)).2 := by
  have clean : ∀ t, 0 ≤ t → Untouched t (cleared P) := fun t _ => ⟨fun _ => rfl,fun _ => rfl,rfl⟩
  obtain ⟨_,found⟩ := initialize_spec (Nat.zero_le trace.candidates.length) clean
  exact found.imp_left And.left

theorem mapMatching_run {started : HMM P} {start : ℕ} (known : Started trace 0 started start) (small : trace.candidates.length < 2 ^ 64) :
    ∃ fuel s matchings, (∀ more ≥ fuel, mainLoop trace more (start + 1) ⟨started,INVALID_STATE,[],[start]⟩ = some s ∧
        subMatchings trace s.model more start (allSplitPoints s) s.model.viterbi_reachable = some matchings) ∧
      Done trace start s ∧ WellFormed trace s.model matchings ∧ trace.candidates.length < fuel := by
  have opened : Open trace start start (start + 1) ⟨started,INVALID_STATE,[],[start]⟩ := open_of_started known known.first le_rfl trivial
  obtain ⟨s,ran,done⟩ := mainLoop_total small opened (cons_ne_nil _ _)
  obtain ⟨matchings,read,wellFormed⟩ : ∃ matchings, (∀ fuel, trace.candidates.length < fuel →
      subMatchings trace s.model fuel start (allSplitPoints s) s.model.viterbi_reachable = some matchings) ∧
      WellFormed trace s.model matchings := by
    cases done with
    | whole segments =>
      obtain ⟨matchings,read,wellFormed,_⟩ := subMatchings_spec small (allSplitPoints s) [] segments (.inl rfl) s.model.viterbi_reachable
      rw [append_nil] at read
      exact ⟨matchings,read,wellFormed⟩
    | rest p points segments behind some_candidate =>
      obtain ⟨matchings,read,wellFormed,_⟩ :=
        subMatchings_spec small s.split_points [p + 1] segments (.inr ⟨p,rfl,behind,some_candidate⟩) s.model.viterbi_reachable
      rw [← points] at read
      exact ⟨matchings,read,wellFormed⟩
  exact ⟨max (remaining trace start (start + 1)) trace.candidates.length + 1,s,matchings,
    fun more enough => ⟨ran more (by omega),read more (by omega)⟩,done,wellFormed,by omega⟩

/-- Map matching ends without reading outside a vector, and its sub-matchings are well formed. -/
theorem mapMatching_wellFormed (trace : Trace P) (small : trace.candidates.length < 2 ^ 64) : ∃ fuel model matchings,
    (∀ more ≥ fuel, mapMatching trace more = some (model,matchings)) ∧ WellFormed trace model matchings := by
  have found := initialize_cleared trace
  generalize result : Initialize trace 0 (cleared P) = started at found
  by_cases invalid : started.2 = INVALID_STATE
  · exact ⟨0,started.1,[],fun more _ => by rw [mapMatching,result,if_pos invalid],wellFormed_nil⟩
  obtain ⟨fuel,s,matchings,ran,_,wellFormed,_⟩ := mapMatching_run (found.resolve_left invalid) small
  refine ⟨fuel,s.model,matchings,fun more enough => ?_,wellFormed⟩
  rw [mapMatching,result,if_neg invalid,(ran more enough).1,bind_some,(ran more enough).2]
  rfl

def boundedLt : Option ℤ → Option ℤ → Bool
  | none,some _ => true
  | some a,some b => decide (a < b)
  | _,none => false

def boundedAdd : Option ℤ → Option ℤ → Option ℤ
  | some a,some b => if a < -2 ^ 63 ∨ b < -2 ^ 63 ∨ a + b < -2 ^ 63 then none else some (a + b)
  | _,_ => none

private theorem boundedLt_trans (a b c : Option ℤ) (one : boundedLt a b = true) (two : boundedLt b c = true) : boundedLt a c = true := by
  cases a <;> cases b <;> cases c <;> simp_all [boundedLt]
  exact one.trans two

private theorem not_boundedLt_none (a : Option ℤ) : boundedLt a none = false := by cases a <;> rfl

private theorem not_boundedLt_add (a e b c : Option ℤ) (below : boundedLt e (some (-2 ^ 63)) = true) :
    boundedLt c (boundedAdd (boundedAdd a e) b) = false := by
  have lost : boundedAdd a e = none := by
    cases a with
    | none => rfl
    | some a =>
      cases e with
      | none => rfl
      | some e => rw [boundedAdd,if_pos (.inr (.inl (of_decide_eq_true below)))]
  rw [lost]
  exact not_boundedLt_none c

def boundedProbabilities : LogProbabilities :=
  ⟨Option ℤ,boundedLt,boundedAdd,none,some (-2 ^ 63),boundedLt_trans,not_boundedLt_none,not_boundedLt_add⟩

/-- Five points with one candidate each, but the third one; nothing leads from the second one to the last ones. -/
def brokenTrace : Trace boundedProbabilities where
  candidates := [1,1,0,1,1]
  emission _ _ := (some (-4) : Option ℤ)
  transition prev _ t _ := if prev < 3 ∧ 3 ≤ t then none else some (some (-2) : Option ℤ)
  timestamps := []
  allow_splitting := false

theorem mapMatching_wellFormed_broken : ∃ fuel model matchings,
    (∀ more ≥ fuel, mapMatching brokenTrace more = some (model,matchings)) ∧ WellFormed brokenTrace model matchings :=
  mapMatching_wellFormed brokenTrace (by decide)

end Osrm.SubMatchings
