import Osrm.LikelyCandidates
import Osrm.SubMatchings

/-!
The most likely candidates of `routing_algorithms::mapMatching`, where log probabilities are exact. A point starts a
range or was processed from one earlier point of its range; that outlasts the splits behind it.
-/
namespace Osrm.LikelyMatchings
open List Option
open HiddenMarkovModel MapMatching SubMatchings LikelyCandidates Stages

section Runs
variable {P : LogProbabilities} {trace : Trace P} {model : HMM P} {s s' final : State P} {initial first t t' : ℕ}

inductive Visits (trace : Trace P) (initial : ℕ) : ℕ → State P → Prop
  | start {model : HMM P} (started : Initialize trace 0 (cleared P) = (model,initial)) (valid : initial ≠ INVALID_STATE) :
      Visits trace initial (initial + 1) ⟨model,INVALID_STATE,[],[initial]⟩
  | go {t t' : ℕ} {s s' : State P} (visits : Visits trace initial t s) (inside : t < trace.candidates.length)
      (step : loopStep trace t s = some (.go t' s')) : Visits trace initial t' s'

def endState : Next P → State P
  | .go _ s => s
  | .stop s => s

private theorem mainLoop_final {fuel : ℕ} (visits : Visits trace initial t s) (ran : mainLoop trace fuel t s = some final) :
    (∃ t', Visits trace initial t' final) ∨
      ∃ t' s', Visits trace initial t' s' ∧ t' < trace.candidates.length ∧ loopStep trace t' s' = some (.stop final) := by
  induction fuel generalizing t s with
  | zero => simp [mainLoop] at ran
  | succ fuel ih =>
    rw [mainLoop] at ran
    by_cases inside : t < trace.candidates.length
    · rw [if_pos inside] at ran
      cases step : loopStep trace t s with
      | none => simp [step] at ran
      | some next =>
        cases next with
        | go t' s' =>
          rw [step] at ran
          exact ih (.go visits inside step) ran
        | stop s' =>
          rw [step] at ran
          obtain rfl : s' = final := some.inj ran
          exact .inr ⟨t,s,visits,inside,step⟩
    · rw [if_neg inside] at ran
      obtain rfl : s = final := some.inj ran
      exact .inl ⟨t,visits⟩

private theorem loopStep_cases {prev : ℕ} {earlier : List ℕ} {next : Next P} (stack : s.prev_unbroken_timestamps = prev :: earlier)
    (step : loopStep trace t s = some next) :
    (gapInTrace trace t prev = true ∧ next = splitTrace trace t s) ∨
      (gapInTrace trace t prev = false ∧ (advance trace t prev earlier s).prev_unbroken_timestamps = [] ∧
        next = splitTrace trace t (advance trace t prev earlier s)) ∨
      (gapInTrace trace t prev = false ∧ (advance trace t prev earlier s).prev_unbroken_timestamps ≠ [] ∧
        next = .go (t + 1) (advance trace t prev earlier s)) := by
  rw [loopStep,stack] at step
  dsimp only at step
  cases gap : gapInTrace trace t prev with
  | true =>
    rw [gap,if_pos rfl] at step
    exact .inl ⟨rfl,(some.inj step).symm⟩
  | false =>
    rw [gap,if_neg Bool.false_ne_true] at step
    by_cases lost : (advance trace t prev earlier s).prev_unbroken_timestamps = []
    · rw [if_pos lost] at step
      exact .inr (.inl ⟨rfl,lost,(some.inj step).symm⟩)
    · rw [if_neg lost] at step
      exact .inr (.inr ⟨rfl,lost,(some.inj step).symm⟩)

private theorem advance_model (trace : Trace P) (t prev : ℕ) (earlier : List ℕ) (s : State P) :
    (advance trace t prev earlier s).model = relaxPoint trace prev t s.model ∧
      (advance trace t prev earlier s).split_points = s.split_points := by
  unfold advance
  dsimp only
  split
  · exact ⟨rfl,rfl⟩
  · exact ⟨rfl,rfl⟩

private theorem splitTrace_state (trace : Trace P) (t : ℕ) (s : State P) :
    (endState (splitTrace trace t s)).model = (Initialize trace (splitIndex t s) (Clear s.model (splitIndex t s))).1 ∧
      (endState (splitTrace trace t s)).split_points = s.split_points ++ [splitIndex t s] := by
  unfold splitTrace
  dsimp only
  split
  · exact ⟨rfl,rfl⟩
  · exact ⟨rfl,rfl⟩

private theorem split_le {splits : List ℕ} (segments : Segments trace model first splits) :
    ∀ split ∈ first :: splits, split ≤ splits.getLastD first := by
  induction splits generalizing first with
  | nil => simp
  | cons last rest ih =>
    obtain ⟨⟨b,segment⟩,segments'⟩ := segments
    have := segment.order
    have later : ∀ split ∈ last :: rest, split ≤ rest.getLastD last := ih segments'
    rw [getLastD_cons]
    intro split member
    cases mem_cons.mp member with
    | inl here =>
      have := later last mem_cons_self
      omega
    | inr after => exact later split after

end Runs

/-! ### What the loop keeps -/

variable {R : Type} [AddCommGroup R] [LinearOrder R] {trace : Trace (exactProbabilities R)} {model model' : HMM (exactProbabilities R)}
  {s s' : State (exactProbabilities R)} {splits : List ℕ} {initial first b last t t' prev : ℕ}

/-- A point has its emissions only, or was processed from an earlier one behind the same split points. -/
def ExplainedAt (trace : Trace (exactProbabilities R)) (splits : List ℕ) (model : HMM (exactProbabilities R)) (t : ℕ) : Prop :=
  Starts trace t model ∨
    ∃ prev < t, (∀ split ∈ splits, split ≤ t → split ≤ prev) ∧ model.breakage prev = false ∧ Optimal trace prev t model
def Explained (trace : Trace (exactProbabilities R)) (splits : List ℕ) (model : HMM (exactProbabilities R)) : Prop :=
  ∀ t, model.breakage t = false → ExplainedAt trace splits model t

private theorem ExplainedAt.sameAt {splits' : List ℕ} (explained : ExplainedAt trace splits model t) (same : ∀ p ≤ t, SameAt p model model')
    (older : ∀ split ∈ splits', split ≤ t → split ∈ splits) : ExplainedAt trace splits' model' t := by
  cases explained with
  | inl starts => exact .inl (starts.sameAt (same t le_rfl))
  | inr processed =>
    obtain ⟨prev,before,behind,live,optimal⟩ := processed
    refine .inr ⟨prev,before,fun split member le => behind split (older split member le) le,?_,?_⟩
    · rw [(same prev before.le).breakage]
      exact live
    · exact optimal.sameAt (same prev before.le) (same t le_rfl)

private theorem Explained.starts (explained : Explained trace splits model) (member : first ∈ splits) (low : first ≤ b)
    (broken : ∀ t, first ≤ t → t < b → model.breakage t = true) (unbroken : model.breakage b = false) : Starts trace b model := by
  cases explained b unbroken with
  | inl starts => exact starts
  | inr processed =>
    obtain ⟨prev,before,behind,live,_⟩ := processed
    rw [broken prev (behind first member low) before] at live
    exact Bool.noConfusion live

private theorem possible_of_open (known : Open trace initial b t s) (numbers : Numbers trace)
    (explained : Explained trace (initial :: s.split_points) s.model) (low : b ≤ prev) :
    ∀ candidate, s.model.pruned prev candidate = false → s.model.viterbi prev candidate ≠ ⊥ := by
  intro candidate live
  rcases Nat.eq_or_lt_of_le low with rfl | after
  · have starts := explained.starts getLastD_mem_cons known.order.1 known.broken known.unbroken
    rw [starts.viterbi candidate ((known.sound b low).inside candidate live).1]
    exact numbers.emission_ne_bot b candidate
  · have possible : (⊥ : Exact R) < s.model.viterbi prev candidate :=
      of_decide_eq_true ((known.reached prev after).possible candidate live)
    exact possible.ne'

private theorem advance_explained [IsOrderedAddMonoid R] (numbers : Numbers trace) (known : Open trace initial b t s)
    (explained : Explained trace (initial :: s.split_points) s.model) (top : prev ∈ s.prev_unbroken_timestamps) :
    Optimal trace prev t (relaxPoint trace prev t s.model) ∧
      Explained trace (initial :: s.split_points) (relaxPoint trace prev t s.model) := by
  obtain ⟨low,before,live⟩ := known.stack prev top
  have same : ∀ u ≠ t, SameAt u s.model (relaxPoint trace prev t s.model) := fun u other => relaxPoint_sameAt other
  have optimal : Optimal trace prev t (relaxPoint trace prev t s.model) :=
    relaxPoint_optimal numbers before.ne (known.untouched t le_rfl) (possible_of_open known numbers explained low)
  refine ⟨optimal,fun u unbroken => ?_⟩
  by_cases here : u = t
  · subst here
    refine .inr ⟨prev,before,fun split member _ => ?_,by rw [(same prev before.ne).breakage]; exact live,optimal⟩
    exact (split_le known.segments split member).trans (known.order.1.trans low)
  · rw [(same u here).breakage] at unbroken
    have earlier : u < t := by
      by_contra later
      rw [(known.untouched u (by omega)).breakage] at unbroken
      exact Bool.noConfusion unbroken
    exact (explained u unbroken).sameAt (fun p le => same p (by omega)) fun split member _ => member

private theorem splitTrace_explained (numbers : Numbers trace) (known : Open trace initial b t' s) (inside : t < trace.candidates.length)
    (after : b < t) (near : t' ≤ t + 1) (explained : Explained trace (initial :: s.split_points) s.model) :
    Explained trace (initial :: (endState (splitTrace trace t s)).split_points) (endState (splitTrace trace t s)).model := by
  obtain ⟨sameModel,sameSplits⟩ := splitTrace_state trace t s
  rw [sameModel,sameSplits]
  obtain ⟨low,high⟩ := splitIndex_bounds known after near
  generalize splitIndex t s = k at low high
  have clean : ∀ u, k ≤ u → Untouched u (Clear s.model k) := fun u above => clear_untouched above
  obtain ⟨kept,_⟩ := initialize_spec (show k ≤ trace.candidates.length by omega) clean
  have starting := initialize_starts numbers clean
  generalize (Initialize trace k (Clear s.model k)).1 = model at kept starting
  have same : ∀ u < k, SameAt u s.model model := fun u below => (clear_sameAt below).trans (kept u below)
  intro u unbroken
  by_cases behind : k ≤ u
  · exact .inl (starting u behind unbroken)
  · have below : u < k := by omega
    rw [(same u below).breakage] at unbroken
    refine (explained u unbroken).sameAt (fun p le => same p (by omega)) fun split member le => ?_
    rw [← cons_append] at member
    cases mem_append.mp member with
    | inl old => exact old
    | inr new =>
      cases mem_singleton.mp new
      exact absurd le behind

structure Known (trace : Trace (exactProbabilities R)) (initial t : ℕ) (s : State (exactProbabilities R)) : Prop where
  some_point : s.prev_unbroken_timestamps ≠ []
  opened : ∃ b, Open trace initial b t s
  explained : Explained trace (initial :: s.split_points) s.model

private theorem loopStep_known [IsOrderedAddMonoid R] (numbers : Numbers trace) (small : trace.candidates.length < 2 ^ 64)
    (known : Known trace initial t s) (inside : t < trace.candidates.length) {next : Next (exactProbabilities R)}
    (step : loopStep trace t s = some next) :
    Explained trace (initial :: (endState next).split_points) (endState next).model ∧
      ∀ t' s', next = .go t' s' → Known trace initial t' s' := by
  obtain ⟨b,opened⟩ := known.opened
  cases stack : s.prev_unbroken_timestamps with
  | nil => exact absurd stack known.some_point
  | cons prev earlier =>
    have before : b < t := opened.order.2.1
    obtain ⟨_,processed⟩ := advance_explained numbers opened known.explained (by rw [stack]; exact mem_cons_self)
    obtain ⟨sameModel,sameSplits⟩ := advance_model trace t prev earlier s
    rw [← sameModel,← sameSplits] at processed
    have advanced := advance_open opened inside small stack
    -- a split leaves the loop, or goes on behind the point at which the model starts
    have split : ∀ s'' t'', Open trace initial b t'' s'' → (t'' = t ∨ t'' = t + 1 ∧ s''.prev_unbroken_timestamps = []) →
        Explained trace (initial :: s''.split_points) s''.model → next = splitTrace trace t s'' →
        Explained trace (initial :: (endState next).split_points) (endState next).model ∧
          ∀ t' s', next = .go t' s' → Known trace initial t' s' := by
      rintro s'' t'' opened'' near explained'' rfl
      have explained := splitTrace_explained numbers opened'' inside before (by omega) explained''
      have result := splitTrace_spec opened'' inside before near small
      refine ⟨explained,fun t' s' goes => ?_⟩
      rw [goes] at explained result
      obtain ⟨b',_,only,_,reopened⟩ := result
      exact ⟨by rw [only]; exact cons_ne_nil _ _,⟨b',reopened⟩,explained⟩
    rcases loopStep_cases stack step with ⟨_,splits⟩ | ⟨_,lost,splits⟩ | ⟨_,some_point,goes⟩
    · exact split s t opened (.inl rfl) known.explained splits
    · exact split _ (t + 1) advanced (.inr ⟨rfl,lost⟩) processed splits
    · subst goes
      refine ⟨processed,fun t' s' same => ?_⟩
      cases same
      exact ⟨some_point,⟨b,advanced⟩,processed⟩

private theorem Visits.known [IsOrderedAddMonoid R] (numbers : Numbers trace) (small : trace.candidates.length < 2 ^ 64)
    (visits : Visits trace initial t s) : Known trace initial t s := by
  induction visits with
  | start started valid =>
    obtain none | found := initialize_cleared trace
    · rw [started] at none
      exact absurd none valid
    · have clean : ∀ t, 0 ≤ t → Untouched t (cleared (exactProbabilities R)) := fun _ _ => ⟨fun _ => rfl,fun _ => rfl,rfl⟩
      have starting := initialize_starts numbers clean
      rw [started] at found starting
      refine ⟨cons_ne_nil _ _,⟨initial,open_of_started found found.first le_rfl trivial⟩,fun t unbroken => ?_⟩
      exact .inl (starting t (Nat.zero_le t) unbroken)
  | go _ inside step ih => exact (loopStep_known numbers small ih inside step).2 _ _ rfl

private theorem mainLoop_explained [IsOrderedAddMonoid R] (numbers : Numbers trace) (small : trace.candidates.length < 2 ^ 64) {fuel : ℕ}
    (visits : Visits trace initial t s) (ran : mainLoop trace fuel t s = some s') :
    Explained trace (initial :: s'.split_points) s'.model := by
  obtain ⟨t',visited⟩ | ⟨t',s'',visited,inside,step⟩ := mainLoop_final visits ran
  · exact (visited.known numbers small).explained
  · exact (loopStep_known numbers small (visited.known numbers small) inside step).1

/-! ### The sub-matchings -/

/-- The candidates of a sub-matching have the greatest total of all candidates along the same points. -/
def MostLikely (trace : Trace (exactProbabilities R)) (matching : SubMatching) : Prop :=
  ∃ value, total (trellis trace) (matching.indices.zip matching.nodes) = some value ∧
    IsGreatest (totals (trellis trace) matching.indices) value

private theorem maxElement_greatest (values : ℕ → Exact R) (size : ℕ) :
    ∀ s < size, values s ≤ values (maxElement (P := exactProbabilities R) values size) := by
  unfold maxElement
  induction size with
  | zero => simp
  | succ k ih =>
    rw [range_succ,foldl_append]
    generalize (List.range k).foldl (fun largest s => if decide (values largest < values s) = true then s else largest) 0 = largest at ih
    simp only [foldl_cons,foldl_nil,decide_eq_true_eq]
    intro s below
    by_cases more : values largest < values k
    · rw [if_pos more]
      rcases Nat.eq_or_lt_of_le (Nat.le_of_lt_succ below) with rfl | less
      · exact le_rfl
      · exact (ih s less).trans more.le
    · rw [if_neg more]
      rcases Nat.eq_or_lt_of_le (Nat.le_of_lt_succ below) with rfl | less
      · exact not_lt.mp more
      · exact ih s less

section Chains
variable [IsOrderedAddMonoid R] {front : List (ℕ × ℕ)} {s : ℕ}

private theorem path_table (segment : Segment trace model first b last) (explained : Explained trace splits model) (member : first ∈ splits)
    (path : Path trace model b last (front ++ [(t,s)])) (begins : ((front ++ [(t,s)]).map Prod.fst).head? = some b) :
    Table (trellis trace) (front.map Prod.fst) t (fun s => model.pruned t s = false) (model.viterbi t) ∧
      total (trellis trace) (front ++ [(t,s)]) = some (model.viterbi t s) := by
  induction front using List.reverseRecOn generalizing t s with
  | nil =>
    obtain rfl : t = b := by simpa using begins
    have starts := explained.starts member segment.order.1 segment.broken segment.unbroken
    obtain ⟨_,_,candidate,_⟩ := path.chosen (t,s) (by simp)
    refine ⟨Table.start starts.pruned starts.viterbi,?_⟩
    rw [nil_append,total,starts.viterbi s candidate]
    rfl
  | append_singleton front point ih =>
    obtain ⟨p,i⟩ := point
    obtain ⟨before,_,links⟩ := isChain_append.mp path.linked
    obtain ⟨less,parents⟩ : p < t ∧ model.parents t s = (p,i) := links (p,i) (by simp) (t,s) (by simp)
    obtain ⟨low,_,_,_⟩ := path.chosen (p,i) (by simp)
    obtain ⟨_,below,candidate,live⟩ := path.chosen (t,s) (by simp)
    dsimp only at low below candidate live
    have unbroken : model.breakage t = false := (segment.sound t (by omega) below).broken.mpr ⟨s,live⟩
    obtain ⟨table,sum⟩ := ih ⟨before,fun point inside => path.chosen point (mem_append_left _ inside)⟩ (by
      cases front with
      | nil => simpa using begins
      | cons head rest => simpa using begins)
    -- the point was processed from the one that its parents belong to
    have optimal : Optimal trace p t model := by
      cases explained t unbroken with
      | inl starts =>
        have own := starts.parent s candidate
        rw [parents] at own
        have : p = t := congrArg Prod.fst own
        omega
      | inr processed =>
        obtain ⟨p',_,_,_,optimal⟩ := processed
        obtain ⟨i',_,parent,_⟩ := optimal.parent s candidate live
        rw [parents] at parent
        obtain rfl : p = p' := congrArg Prod.fst parent
        exact optimal
    constructor
    · rw [map_append]
      refine table.next (fun s' inside lost => ?_) (fun s' inside alive => optimal.greatest s' inside alive)
      exact (optimal.pruned s' inside).mp (by simpa using lost)
    · obtain ⟨i',cost,parent,_,_,found,value⟩ := optimal.parent s candidate live
      rw [parents] at parent
      obtain rfl : i = i' := congrArg Prod.snd parent
      rw [total_concat,sum,bind_some,show (trellis trace).step p i t s = some cost from found,map_some,value]
      rfl

end Chains

private theorem backtrack_ends {P : LogProbabilities} {trace : Trace P} {model : HMM P} (segment : Segment trace model first b last) {fuel s : ℕ}
    {points found : List (ℕ × ℕ)} {viterbi_reachable reachable : ℕ → ℕ → Bool} (path : Path trace model b last ((t,s) :: points))
    (ran : backtrack trace model b fuel t s points viterbi_reachable = some (found,reachable)) :
    Path trace model b last found ∧ (found.map Prod.fst).head? = some b ∧ (t,s) :: points <:+ found := by
  induction fuel generalizing t s points viterbi_reachable with
  | zero => simp [backtrack] at ran
  | succ fuel ih =>
    obtain ⟨low,_,candidate,_⟩ := path.chosen (t,s) mem_cons_self
    have set : setReachable trace viterbi_reachable t s = some (assign viterbi_reachable t s true) := if_pos candidate
    rw [backtrack,set,bind_some] at ran
    by_cases more : b < t
    · obtain ⟨less,longer⟩ := path.parent segment more
      rw [if_pos more,if_neg (by omega)] at ran
      obtain ⟨whole,head,suffix⟩ := ih longer ran
      exact ⟨whole,head,(suffix_cons _ _).trans suffix⟩
    · rw [if_neg more] at ran
      obtain ⟨rfl,_⟩ := Prod.mk.inj (some.inj ran)
      obtain rfl : t = b := by dsimp only at low; omega
      exact ⟨path,rfl,suffix_refl _⟩

section Reading
variable {P : LogProbabilities} {trace : Trace P} {model : HMM P} {fuel : ℕ} {m : SubMatching} {matchings : List SubMatching}
  {viterbi_reachable reachable : ℕ → ℕ → Bool}

private theorem subMatching_cases (matched : subMatching trace model fuel first last viterbi_reachable = some (reachable,some m)) :
    ∃ t b points reached, lastUnbroken trace model first fuel ((last + 2 ^ 64 - 1) % 2 ^ 64) = some t ∧
      firstUnbroken trace model last fuel first = some b ∧ ¬ (t + 2 ^ 64 - b + 1) % 2 ^ 64 < 2 ∧
      backtrack trace model b fuel t (maxElement (model.viterbi t) (trace.size t)) [] viterbi_reachable = some (points,reached) ∧
      m.indices = points.map Prod.fst ∧ m.nodes = points.map Prod.snd := by
  obtain ⟨t,back,matched⟩ := bind_eq_some_iff.mp matched
  obtain ⟨b,forth,matched⟩ := bind_eq_some_iff.mp matched
  by_cases alone : (t + 2 ^ 64 - b + 1) % 2 ^ 64 < 2
  · rw [if_pos alone] at matched
    simp at matched
  rw [if_neg alone] at matched
  by_cases inside : t < trace.candidates.length
  · rw [if_pos inside] at matched
    obtain ⟨⟨points,reached⟩,way,matched⟩ := bind_eq_some_iff.mp matched
    dsimp only at matched
    by_cases short : points.length < 2
    · rw [if_pos short] at matched
      simp at matched
    rw [if_neg short] at matched
    obtain ⟨filled,_,matched⟩ := bind_eq_some_iff.mp matched
    obtain ⟨counts,_,same⟩ := map_eq_some_iff.mp matched
    obtain rfl := some.inj (Prod.mk.inj same).2
    exact ⟨t,b,points,reached,back,forth,alone,way,rfl,rfl⟩
  · rw [if_neg inside] at matched
    simp at matched

private theorem subMatchings_behind {tail : List ℕ} (small : trace.candidates.length < 2 ^ 64) (enough : trace.candidates.length < fuel)
    (ends : tail = [] ∨ ∃ p, tail = [p + 1] ∧ p + 1 ≤ first ∧ 0 < trace.size p)
    (ran : subMatchings trace model fuel first tail viterbi_reachable = some matchings) : matchings = [] := by
  cases ends with
  | inl none =>
    rw [none] at ran
    exact (some.inj ran).symm
  | inr behind =>
    obtain ⟨p,rfl,order,some_candidate⟩ := behind
    obtain ⟨reachable,nothing⟩ : ∃ reachable, ∀ fuel, trace.candidates.length < fuel →
        subMatching trace model fuel first (p + 1) viterbi_reachable = some (reachable,none) :=
      subMatching_behind order some_candidate small viterbi_reachable
    rw [subMatchings,nothing fuel enough] at ran
    exact (some.inj ran).symm

private theorem mem_subMatchings {tail : List ℕ} (small : trace.candidates.length < 2 ^ 64) (enough : trace.candidates.length < fuel)
    (segments : Segments trace model first splits)
    (ends : tail = [] ∨ ∃ p, tail = [p + 1] ∧ p + 1 ≤ splits.getLastD first ∧ 0 < trace.size p)
    (ran : subMatchings trace model fuel first (splits ++ tail) viterbi_reachable = some matchings) (member : m ∈ matchings) :
    ∃ first' ∈ first :: splits.dropLast, ∃ b last before after, Segment trace model first' b last ∧
      subMatching trace model fuel first' last before = some (after,some m) := by
  induction splits generalizing first viterbi_reachable matchings with
  | nil =>
    rw [subMatchings_behind small enough ends ran] at member
    exact absurd member not_mem_nil
  | cons last rest ih =>
    obtain ⟨⟨b,segment⟩,segments'⟩ := segments
    rw [cons_append,subMatchings] at ran
    obtain ⟨⟨after,matching⟩,here,ran⟩ := bind_eq_some_iff.mp ran
    obtain ⟨later,read,rfl⟩ := map_eq_some_iff.mp ran
    rw [getLastD_cons] at ends
    cases mem_append.mp member with
    | inl mine =>
      obtain rfl : matching = some m := by simpa using mine
      exact ⟨first,mem_cons_self,b,last,viterbi_reachable,after,segment,here⟩
    | inr other =>
      cases rest with
      | nil =>
        rw [subMatchings_behind small enough ends read] at other
        exact absurd other not_mem_nil
      | cons next rest =>
        obtain ⟨first',found,facts⟩ := ih segments' ends read other
        exact ⟨first',mem_cons_of_mem _ found,facts⟩

end Reading

private theorem matching_mostLikely [IsOrderedAddMonoid R] {fuel : ℕ} {m : SubMatching} {viterbi_reachable reachable : ℕ → ℕ → Bool}
    (small : trace.candidates.length < 2 ^ 64) (enough : trace.candidates.length < fuel) (segment : Segment trace model first b last)
    (explained : Explained trace splits model) (member : first ∈ splits)
    (matched : subMatching trace model fuel first last viterbi_reachable = some (reachable,some m)) : MostLikely trace m := by
  obtain ⟨low,below,bound⟩ := segment.order
  obtain ⟨t,b',points,reached,back,forth,apart,way,indices,nodes⟩ := subMatching_cases matched
  obtain ⟨found,goneBack,above,le,unbroken⟩ := lastUnbroken_spec low (show b ≤ last - 1 by omega) (by omega) small segment.unbroken
  rw [show (last + 2 ^ 64 - 1) % 2 ^ 64 = last - 1 by omega,goneBack fuel (by omega)] at back
  rw [firstUnbroken_spec low below (by omega) segment.broken segment.unbroken fuel (by omega)] at forth
  obtain rfl := some.inj back
  obtain rfl := some.inj forth
  have more : b < found := by omega
  have start := path_maxElement segment more (by omega) unbroken
  obtain ⟨path,begins,front,rfl⟩ := backtrack_ends segment start way
  obtain ⟨table,sum⟩ := path_table segment explained member path begins
  obtain ⟨_,_,candidate,live⟩ := start.chosen _ mem_cons_self
  refine ⟨model.viterbi found (maxElement (model.viterbi found) (trace.size found)),?_,?_⟩
  · rw [indices,nodes,zip_map',show (fun x : ℕ × ℕ => (x.1,x.2)) = id from rfl,List.map_id]
    exact sum
  · rw [indices,map_append]
    exact table.whole candidate live fun s inside _ => maxElement_greatest (model.viterbi found) (trace.size found) s inside

/-- Each candidate of a point ends with the greatest value that a candidate of the last point that is not broken gives, or
    stays pruned where there is none; and each sub-matching has the greatest total along its points. -/
theorem mapMatching_mostLikely [IsOrderedAddMonoid R] (trace : Trace (exactProbabilities R)) (numbers : Numbers trace)
    (small : trace.candidates.length < 2 ^ 64) :
    (∀ initial t s prev earlier, Visits trace initial t s → t < trace.candidates.length →
      s.prev_unbroken_timestamps = prev :: earlier → gapInTrace trace t prev = false →
      s.model.breakage prev = false ∧ Optimal trace prev t (advance trace t prev earlier s).model) ∧
    ∃ fuel model matchings, (∀ more ≥ fuel, mapMatching trace more = some (model,matchings)) ∧ ∀ m ∈ matchings, MostLikely trace m := by
  constructor
  · intro initial t s prev earlier visits _ stack _
    have known := visits.known numbers small
    obtain ⟨b,opened⟩ := known.opened
    have top : prev ∈ s.prev_unbroken_timestamps := by
      rw [stack]
      exact mem_cons_self
    rw [(advance_model trace t prev earlier s).1]
    exact ⟨(opened.stack prev top).2.2,(advance_explained numbers opened known.explained top).1⟩
  have found := initialize_cleared trace
  generalize result : Initialize trace 0 (cleared (exactProbabilities R)) = started at found
  by_cases invalid : started.2 = INVALID_STATE
  · exact ⟨0,started.1,[],fun more _ => by rw [mapMatching,result,if_pos invalid],by simp⟩
  obtain ⟨fuel,s,matchings,ran,done,_,enough⟩ := mapMatching_run (found.resolve_left invalid) small
  have explained := mainLoop_explained numbers small (.start result invalid) (ran fuel le_rfl).1
  refine ⟨fuel,s.model,matchings,fun more enough => ?_,fun m member => ?_⟩
  · rw [mapMatching,result,if_neg invalid,(ran more enough).1,bind_some,(ran more enough).2]
    rfl
  -- the ranges begin at the points where the trace was split
  have read := (ran fuel le_rfl).2
  have from_range : ∃ first' ∈ started.2 :: s.split_points, ∃ b last before after, Segment trace s.model first' b last ∧
      subMatching trace s.model fuel first' last before = some (after,some m) := by
    cases done with
    | whole segments =>
      rw [← append_nil (allSplitPoints s)] at read
      obtain ⟨first',inside,facts⟩ := mem_subMatchings small enough segments (.inl rfl) read member
      refine ⟨first',?_,facts⟩
      cases stack : s.prev_unbroken_timestamps with
      | nil =>
        rw [allSplitPoints,stack] at inside
        exact cons_subset_cons _ (dropLast_subset _) inside
      | cons p earlier =>
        rw [allSplitPoints,stack] at inside
        simpa using inside
    | rest p points segments behind some_candidate =>
      rw [points] at read
      obtain ⟨first',inside,facts⟩ := mem_subMatchings small enough segments (.inr ⟨p,rfl,behind,some_candidate⟩) read member
      exact ⟨first',cons_subset_cons _ (dropLast_subset _) inside,facts⟩
  obtain ⟨first',inside,b,last,before,after,segment,matched⟩ := from_range
  exact matching_mostLikely small enough segment explained inside matched

/-- Four points with two candidates each; nothing leads to the third, and to the fourth the other candidate costs more. -/
def detour : Trace (exactProbabilities ℤ) where
  candidates := [2,2,2,2]
  emission t s := (((if t = s then -1 else -2 : ℤ) : WithBot ℤ) : Exact ℤ)
  transition _ s t s_prime := if t = 2 then none else some (((if s = s_prime then -1 else -5 : ℤ) : WithBot ℤ) : Exact ℤ)
  timestamps := []
  allow_splitting := false

private theorem detour_numbers : Numbers detour := by
  refine ⟨fun t s => ⟨_,rfl⟩,fun prev s t s_prime cost found => ?_⟩
  by_cases third : t = 2
  · simp [detour,third] at found
  · refine ⟨if s = s_prime then -1 else -5,by simpa [detour,third,eq_comm] using found,?_⟩
    split <;> decide

theorem mapMatching_mostLikely_detour :
    (∀ initial t s prev earlier, Visits detour initial t s → t < detour.candidates.length →
      s.prev_unbroken_timestamps = prev :: earlier → gapInTrace detour t prev = false →
      s.model.breakage prev = false ∧ Optimal detour prev t (advance detour t prev earlier s).model) ∧
    ∃ fuel model matchings, (∀ more ≥ fuel, mapMatching detour more = some (model,matchings)) ∧ ∀ m ∈ matchings, MostLikely detour m :=
  mapMatching_mostLikely detour detour_numbers (by decide)

-- The second point was processed, but given up when the third one had no candidate left.
example : (mapMatching detour 20).map (fun result => result.2.map fun m => (m.indices,m.nodes)) = some [([0,3],[0,0])] := by decide

end Osrm.LikelyMatchings
