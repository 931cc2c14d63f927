import Mathlib.Data.List.Sort
import Osrm.HiddenMarkovModel

/-!
`routing_algorithms::mapMatching`. The loop over the points of a trace keeps those that are not broken on a stack;
where none is left, or the trace has a gap, the trace is split at the first broken point and goes on from there.
-/
namespace Osrm.MapMatching
open List
open HiddenMarkovModel
variable {P : LogProbabilities}

def MAX_BROKEN_STATES : ℕ := 10
def difference (a b : ℕ) : ℕ := (a + 2 ^ 32 - b % 2 ^ 32) % 2 ^ 32
def getMedianSampleTime (timestamps : List ℕ) : ℕ :=
  let sample_times := (timestamps.zip timestamps.tail).map fun (before,after) => difference after before
  (sample_times.mergeSort (· ≤ ·)).getD (sample_times.length / 2) 0
def maxBrokenTime (timestamps : List ℕ) : ℕ :=
  (if 1 < timestamps.length then max 1 (getMedianSampleTime timestamps) else 1) * MAX_BROKEN_STATES % 2 ^ 32

/-- `gap_in_trace` for a point and the last one that is not broken. -/
def gapInTrace (trace : Trace P) (t prev : ℕ) : Bool :=
  if 1 < trace.timestamps.length ∧ trace.allow_splitting = true then
    decide (maxBrokenTime trace.timestamps < difference (trace.timestamps.getD t 0) (trace.timestamps.getD prev 0))
  else decide (MAX_BROKEN_STATES < t - prev)

/-- The locals of the loop; the last point of `prev_unbroken_timestamps` comes first. -/
structure State (P : LogProbabilities) where
  model : HMM P
  breakage_begin : ℕ
  split_points : List ℕ
  prev_unbroken_timestamps : List ℕ

inductive Next (P : LogProbabilities) where
  | go (t : ℕ) (s : State P)
  | stop (s : State P)

section Loop
variable (trace : Trace P)

/-- The body where there is no gap. -/
def advance (t prev : ℕ) (earlier : List ℕ) (s : State P) : State P :=
  let model := relaxPoint trace prev t s.model
  if model.breakage t then
    { s with
      model := model
      breakage_begin := if t < s.breakage_begin then t else s.breakage_begin
      prev_unbroken_timestamps := earlier }
  else { s with model := model, prev_unbroken_timestamps := t :: prev :: earlier }

def splitIndex (t : ℕ) (s : State P) : ℕ := if s.breakage_begin = INVALID_STATE then t else s.breakage_begin

def splitTrace (t : ℕ) (s : State P) : Next P :=
  let started := Initialize trace (splitIndex t s) (Clear s.model (splitIndex t s))
  let s' := { s with
    model := started.1
    breakage_begin := INVALID_STATE
    split_points := s.split_points ++ [splitIndex t s] }
  if started.2 = INVALID_STATE then .stop s' else .go (started.2 + 1) { s' with prev_unbroken_timestamps := [started.2] }

/-- One iteration; without a point that is not broken there is no last one. -/
def loopStep (t : ℕ) (s : State P) : Option (Next P) :=
  match s.prev_unbroken_timestamps with
  | [] => none
  | prev :: earlier =>
    if gapInTrace trace t prev then some (splitTrace trace t s)
    else if (advance trace t prev earlier s).prev_unbroken_timestamps = [] then some (splitTrace trace t (advance trace t prev earlier s))
    else some (.go (t + 1) (advance trace t prev earlier s))

def mainLoop : ℕ → ℕ → State P → Option (State P)
  | 0,_,_ => none
  | fuel + 1,t,s =>
    if t < trace.candidates.length then
      match loopStep trace t s with
      | none => none
      | some (.go t' s') => mainLoop fuel t' s'
      | some (.stop s') => some s'
    else some s

def allSplitPoints (s : State P) : List ℕ :=
  match s.prev_unbroken_timestamps with
  | [] => s.split_points
  | last :: _ => s.split_points ++ [last + 1]

end Loop

variable {trace : Trace P} {model model' : HMM P} {s s' : State P} {first b t last : ℕ}

/-- The points of a range: broken ones, then the first one that is not, and those reached from it. -/
structure Segment (trace : Trace P) (model : HMM P) (first b last : ℕ) : Prop where
  order : first ≤ b ∧ b < last ∧ last ≤ trace.candidates.length
  broken : ∀ t, first ≤ t → t < b → model.breakage t = true
  unbroken : model.breakage b = false
  sound : ∀ t, b ≤ t → t < last → Sound trace t model
  reached : ∀ t, b < t → t < last → Reached trace b t model

private theorem Segment.sameAt (segment : Segment trace model first b last) (same : ∀ t < last, SameAt t model model') :
    Segment trace model' first b last := by
  obtain ⟨_,inside,_⟩ := segment.order
  refine ⟨segment.order,fun t low high => ?_,?_,fun t low high => (segment.sound t low high).sameAt (same t high),
    fun t low high => (segment.reached t low high).sameAt fun t' le => same t' (by omega)⟩
  · rw [(same t (by omega)).breakage]
    exact segment.broken t low high
  · rw [(same b inside).breakage]
    exact segment.unbroken

def Segments (trace : Trace P) (model : HMM P) : ℕ → List ℕ → Prop
  | _,[] => True
  | first,last :: rest => (∃ b, Segment trace model first b last) ∧ Segments trace model last rest

private theorem segments_append {splits : List ℕ} : Segments trace model first (splits ++ [last]) ↔
    Segments trace model first splits ∧ ∃ b, Segment trace model (splits.getLastD first) b last := by
  induction splits generalizing first with
  | nil => simp [Segments]
  | cons split rest ih =>
    rw [cons_append,Segments,ih,Segments,and_assoc]
    cases rest with
    | nil => rfl
    | cons next rest => simp [List.getLastD]

private theorem Segments.sameAt {splits : List ℕ} (segments : Segments trace model first splits)
    (same : ∀ t < splits.getLastD first, SameAt t model model') : Segments trace model' first splits := by
  induction splits using List.reverseRecOn with
  | nil => trivial
  | append_singleton splits last ih =>
    obtain ⟨before,b,segment⟩ := segments_append.mp segments
    rw [getLastD_concat] at same
    obtain ⟨low,high,_⟩ := segment.order
    exact segments_append.mpr ⟨ih before fun t less => same t (by omega),b,segment.sameAt same⟩

/-! ### The loop -/

/-- What the loop knows of the range it is in, whose first point that is not broken is `b`, before it looks at `t`. -/
structure Open (trace : Trace P) (initial b t : ℕ) (s : State P) : Prop where
  segments : Segments trace s.model initial s.split_points
  order : s.split_points.getLastD initial ≤ b ∧ b < t ∧ t ≤ trace.candidates.length
  broken : ∀ t', s.split_points.getLastD initial ≤ t' → t' < b → s.model.breakage t' = true
  unbroken : s.model.breakage b = false
  sound : ∀ t', b ≤ t' → Sound trace t' s.model
  reached : ∀ t', b < t' → Reached trace b t' s.model
  untouched : ∀ t', t ≤ t' → Untouched t' s.model
  stack : ∀ p ∈ s.prev_unbroken_timestamps, b ≤ p ∧ p < t ∧ s.model.breakage p = false
  bottom : ∀ p, s.prev_unbroken_timestamps.getLast? = some p → p = b
  breakage : s.breakage_begin = INVALID_STATE ∨ b < s.breakage_begin ∧ s.breakage_begin < t

private theorem Open.segment {initial : ℕ} (known : Open trace initial b t s) (low : b < last) (high : last ≤ trace.candidates.length) :
    Segment trace s.model (s.split_points.getLastD initial) b last :=
  ⟨⟨known.order.1,low,high⟩,known.broken,known.unbroken,fun t' low _ => known.sound t' low,fun t' low _ => known.reached t' low⟩

/-- When the loop is left: ranges between the split points, and at most an end not behind the last one. -/
inductive Done (trace : Trace P) (initial : ℕ) (s : State P) : Prop where
  | whole (segments : Segments trace s.model initial (allSplitPoints s))
  | rest (p : ℕ) (points : allSplitPoints s = s.split_points ++ [p + 1]) (segments : Segments trace s.model initial s.split_points)
      (behind : p + 1 ≤ s.split_points.getLastD initial) (some_candidate : 0 < trace.size p)

theorem advance_open {initial prev : ℕ} {earlier : List ℕ} (known : Open trace initial b t s) (inside : t < trace.candidates.length)
    (small : trace.candidates.length < 2 ^ 64) (stack : s.prev_unbroken_timestamps = prev :: earlier) :
    Open trace initial b (t + 1) (advance trace t prev earlier s) := by
  obtain ⟨low,before,_⟩ := known.order
  have top := known.stack prev (by rw [stack]; exact mem_cons_self)
  obtain ⟨sound,reached⟩ : Sound trace t (relaxPoint trace prev t s.model) ∧ Reached trace b t (relaxPoint trace prev t s.model) :=
    relaxPoint_reached top.1 top.2.1 (known.untouched t le_rfl)
  have same : ∀ t' ≠ t, SameAt t' s.model (relaxPoint trace prev t s.model) := fun t' other => relaxPoint_sameAt other
  have below : ∀ t' < t, SameAt t' s.model (relaxPoint trace prev t s.model) := fun t' less => same t' less.ne
  have segments : Segments trace (relaxPoint trace prev t s.model) initial s.split_points :=
    known.segments.sameAt fun t' less => below t' (by omega)
  have broken : ∀ t', s.split_points.getLastD initial ≤ t' → t' < b → (relaxPoint trace prev t s.model).breakage t' = true := by
    intro t' after less
    rw [(below t' (by omega)).breakage]
    exact known.broken t' after less
  have unbroken : (relaxPoint trace prev t s.model).breakage b = false := by
    rw [(below b before).breakage]
    exact known.unbroken
  have sounds : ∀ t', b ≤ t' → Sound trace t' (relaxPoint trace prev t s.model) := by
    intro t' after
    by_cases here : t' = t
    · exact here ▸ sound
    · exact (known.sound t' after).sameAt (same t' here)
  have untouched : ∀ t', t + 1 ≤ t' → Untouched t' (relaxPoint trace prev t s.model) := fun t' after =>
    (known.untouched t' (by omega)).sameAt (same t' (by omega))
  have reaches : ∀ t', b < t' → Reached trace b t' (relaxPoint trace prev t s.model) := by
    intro t' after
    rcases lt_trichotomy t' t with less | here | more
    · exact (known.reached t' after).sameAt fun t'' le => below t'' (by omega)
    · exact here ▸ reached
    · exact (untouched t' more).reached b
  have stacked : ∀ p ∈ prev :: earlier, b ≤ p ∧ p < t + 1 ∧ (relaxPoint trace prev t s.model).breakage p = false := by
    intro p member
    obtain ⟨after,less,live⟩ := known.stack p (by rw [stack]; exact member)
    exact ⟨after,by omega,by rw [(below p less).breakage]; exact live⟩
  have bottom := known.bottom
  rw [stack] at bottom
  unfold advance
  dsimp only
  split
  · refine ⟨segments,⟨low,by omega,by omega⟩,broken,unbroken,sounds,reaches,untouched,fun p member => stacked p (mem_cons_of_mem _ member),?_,?_⟩
    · intro p found
      apply bottom p
      cases earlier with
      | nil => simp at found
      | cons next rest => simpa using found
    · right
      dsimp only
      cases known.breakage with
      | inl none =>
        rw [none,if_pos (by unfold INVALID_STATE; omega)]
        exact ⟨before,Nat.lt_succ_self t⟩
      | inr earlier =>
        rw [if_neg (by omega)]
        exact ⟨earlier.1,by omega⟩
  · rename_i live
    refine ⟨segments,⟨low,by omega,by omega⟩,broken,unbroken,sounds,reaches,untouched,?_,?_,?_⟩
    · intro p member
      cases mem_cons.mp member with
      | inl here => exact ⟨by omega,by omega,by rw [here]; simpa using live⟩
      | inr older => exact stacked p older
    · intro p found
      apply bottom p
      simpa using found
    · cases known.breakage with
      | inl none => exact .inl none
      | inr earlier => exact .inr ⟨earlier.1,Nat.lt_succ_of_lt earlier.2⟩

theorem splitIndex_bounds {initial t' : ℕ} (known : Open trace initial b t' s) (after : b < t) (near : t' ≤ t + 1) :
    b < splitIndex t s ∧ splitIndex t s ≤ t := by
  unfold splitIndex
  by_cases none : s.breakage_begin = INVALID_STATE
  · rw [if_pos none]
    exact ⟨after,le_rfl⟩
  · rw [if_neg none]
    have := known.breakage.resolve_left none
    omega

def SplitResult (trace : Trace P) (initial b : ℕ) : Next P → Prop
  | .stop s => Done trace initial s
  | .go t s => ∃ b', b < b' ∧ s.prev_unbroken_timestamps = [b'] ∧ t = b' + 1 ∧ Open trace initial b' t s

theorem open_of_started {initial k start : ℕ} {split_points : List ℕ} {model : HMM P} (started : Started trace k model start)
    (broken : k ≤ split_points.getLastD initial) (before : split_points.getLastD initial ≤ start)
    (segments : Segments trace model initial split_points) :
    Open trace initial start (start + 1) ⟨model,INVALID_STATE,split_points,[start]⟩ := by
  refine ⟨segments,⟨before,Nat.lt_succ_self _,started.inside.le⟩,fun t low => started.broken t (broken.trans low),started.unbroken,
    ?_,?_,?_,?_,?_,.inl rfl⟩
  · intro t above
    rcases Nat.eq_or_lt_of_le above with rfl | more
    · exact started.sound
    · exact (started.untouched t more).sound
  · exact fun t more => (started.untouched t more).reached start
  · exact fun t more => started.untouched t more
  · intro p member
    cases mem_singleton.mp member
    exact ⟨le_rfl,Nat.lt_succ_self _,started.unbroken⟩
  · intro p last
    simpa using last.symm

theorem splitTrace_spec {initial t' : ℕ} (known : Open trace initial b t' s) (inside : t < trace.candidates.length) (after : b < t)
    (near : t' = t ∨ t' = t + 1 ∧ s.prev_unbroken_timestamps = []) (small : trace.candidates.length < 2 ^ 64) :
    SplitResult trace initial b (splitTrace trace t s) := by
  obtain ⟨low,high⟩ := splitIndex_bounds known after (by omega)
  unfold splitTrace
  generalize splitIndex t s = split at low high
  have segment := known.segment low (by omega)
  have clean : ∀ t', split ≤ t' → Untouched t' (Clear s.model split) := fun t' above => clear_untouched above
  obtain ⟨kept,found⟩ := initialize_spec (show split ≤ trace.candidates.length by omega) clean
  generalize Initialize trace split (Clear s.model split) = started at kept found
  have same : ∀ t' < split, SameAt t' s.model started.1 := fun t' below => (clear_sameAt below).trans (kept t' below)
  have segments : Segments trace started.1 initial (s.split_points ++ [split]) := by
    refine segments_append.mpr ⟨known.segments.sameAt fun t' less => same t' ?_,b,segment.sameAt same⟩
    have := known.order.1
    omega
  dsimp only
  by_cases invalid : started.2 = INVALID_STATE
  · rw [if_pos invalid]
    cases stack : s.prev_unbroken_timestamps with
    | nil =>
      refine Done.whole ?_
      simpa only [allSplitPoints,stack] using segments
    | cons p earlier =>
      obtain ⟨above,below,live⟩ := known.stack p (by rw [stack]; exact mem_cons_self)
      have here : t' = t := near.resolve_right fun both => by
        rw [stack] at both
        exact absurd both.2 (cons_ne_nil _ _)
      subst here
      obtain ⟨candidate,chance⟩ := (known.sound p above).broken.mp live
      obtain ⟨known_candidate,likely⟩ := (known.sound p above).inside candidate chance
      have behind : p < split := by
        by_contra inside_range
        cases found with
        | inl none =>
          -- the point has a chance in itself, and the model would have started there
          have := none.2 p (by omega) (by omega) candidate known_candidate
          rw [likely] at this
          exact Bool.noConfusion this
        | inr valid =>
          have := valid.inside
          rw [invalid,INVALID_STATE] at this
          omega
      refine Done.rest p (by simp only [allSplitPoints]) segments ?_ (by omega)
      dsimp only
      rw [getLastD_concat]
      exact behind
  · rw [if_neg invalid]
    obtain none | valid := found
    · exact absurd none.1 invalid
    have first := valid.first
    refine ⟨started.2,by omega,rfl,rfl,open_of_started valid ?_ ?_ segments⟩
    · rw [getLastD_concat]
    · rw [getLastD_concat]
      exact first

/-- What is left to be done: a split moves the start of the range, the other steps the point. -/
def remaining (trace : Trace P) (b t : ℕ) : ℕ :=
  (trace.candidates.length - b) * (trace.candidates.length + 1) + (trace.candidates.length - t)

private theorem remaining_next (inside : t < trace.candidates.length) : remaining trace b (t + 1) < remaining trace b t := by
  unfold remaining
  omega

private theorem remaining_split {b' t' : ℕ} (more : b < b') (inside : b < trace.candidates.length) :
    remaining trace b' t' < remaining trace b t := by
  unfold remaining
  have rows : (trace.candidates.length - b') * (trace.candidates.length + 1) + (trace.candidates.length + 1) ≤
      (trace.candidates.length - b) * (trace.candidates.length + 1) := by
    rw [← Nat.succ_mul]
    exact Nat.mul_le_mul_right _ (by omega)
  omega

private theorem mainLoop_go {s' final : State P} {t' rounds rounds' : ℕ} (inside : t < trace.candidates.length)
    (step : loopStep trace t s = some (.go t' s')) (less : rounds' < rounds)
    (ran : ∀ fuel, rounds' < fuel → mainLoop trace fuel t' s' = some final) : ∀ fuel, rounds < fuel → mainLoop trace fuel t s = some final := by
  intro fuel enough
  obtain ⟨fuel,rfl⟩ := Nat.exists_eq_add_one.mpr (Nat.zero_lt_of_lt enough)
  rw [mainLoop,if_pos inside,step]
  exact ran fuel (by omega)

theorem mainLoop_total {initial : ℕ} (small : trace.candidates.length < 2 ^ 64) (known : Open trace initial b t s)
    (some_point : s.prev_unbroken_timestamps ≠ []) :
    ∃ final, (∀ fuel, remaining trace b t < fuel → mainLoop trace fuel t s = some final) ∧ Done trace initial final := by
  induction measure : remaining trace b t using Nat.strong_induction_on generalizing b t s with
  | _ measure ih =>
    subst measure
    obtain ⟨low,before,bound⟩ := known.order
    by_cases inside : t < trace.candidates.length
    · cases stack : s.prev_unbroken_timestamps with
      | nil => exact absurd stack some_point
      | cons prev earlier =>
        -- the trace is split, whatever came before
        have split : ∀ next, loopStep trace t s = some next → SplitResult trace initial b next →
            ∃ final, (∀ fuel, remaining trace b t < fuel → mainLoop trace fuel t s = some final) ∧ Done trace initial final := by
          intro next step result
          cases next with
          | stop s' =>
            refine ⟨s',fun fuel enough => ?_,result⟩
            obtain ⟨fuel,rfl⟩ := Nat.exists_eq_add_one.mpr (Nat.zero_lt_of_lt enough)
            rw [mainLoop,if_pos inside,step]
          | go t' s' =>
            obtain ⟨b',more,only,_,opened⟩ := result
            have less : remaining trace b' t' < remaining trace b t := remaining_split more (by omega)
            obtain ⟨final,ran,done⟩ := ih _ less opened (by rw [only]; exact cons_ne_nil _ _) rfl
            exact ⟨final,mainLoop_go inside step less ran,done⟩
        by_cases gap : gapInTrace trace t prev = true
        · exact split _ (by rw [loopStep,stack]; simp only [if_pos gap])
            (splitTrace_spec known inside before (.inl rfl) small)
        · have opened := advance_open known inside small stack
          by_cases lost : (advance trace t prev earlier s).prev_unbroken_timestamps = []
          · exact split _ (by rw [loopStep,stack]; simp only [if_neg gap,if_pos lost])
              (splitTrace_spec opened inside before (.inr ⟨rfl,lost⟩) small)
          · have step : loopStep trace t s = some (.go (t + 1) (advance trace t prev earlier s)) := by
              rw [loopStep,stack]
              simp only [if_neg gap,if_neg lost]
            have less := remaining_next (b := b) inside
            obtain ⟨final,ran,done⟩ := ih _ less opened lost rfl
            exact ⟨final,mainLoop_go inside step less ran,done⟩
    · refine ⟨s,fun fuel enough => ?_,?_⟩
      · obtain ⟨fuel,rfl⟩ := Nat.exists_eq_add_one.mpr (Nat.zero_lt_of_lt enough)
        rw [mainLoop,if_neg inside]
      · cases stack : s.prev_unbroken_timestamps with
        | nil => exact absurd stack some_point
        | cons p earlier =>
          obtain ⟨above,below,_⟩ := known.stack p (by rw [stack]; exact mem_cons_self)
          refine Done.whole ?_
          rw [allSplitPoints,stack]
          exact segments_append.mpr ⟨known.segments,b,known.segment (by omega) (by omega)⟩

end Osrm.MapMatching
