import Mathlib.Data.List.Basic
import Mathlib.Logic.Function.Basic
import Osrm.Loops

/-!
`map_matching::HiddenMarkovModel` and the step of map matching between two points. A candidate of a point is pruned
until a candidate of an earlier point leads to it, its parent; a point with no other candidates is broken.
-/
namespace Osrm.HiddenMarkovModel
open List
open Loops

/-- The arithmetic of log probabilities. Of the floating-point numbers only this is needed: nothing is less than the
    impossible value, and no sum with a value below the least finite one exceeds anything. -/
structure LogProbabilities where
  Value : Type
  lt : Value → Value → Bool
  add : Value → Value → Value
  IMPOSSIBLE_LOG_PROB : Value
  MINIMAL_LOG_PROB : Value
  lt_trans : ∀ a b c, lt a b = true → lt b c = true → lt a c = true
  not_lt_impossible : ∀ a, lt a IMPOSSIBLE_LOG_PROB = false
  not_lt_add : ∀ a e b c, lt e MINIMAL_LOG_PROB = true → lt c (add (add a e) b) = false

/-- The numbers of candidates of the points, the log probabilities of the candidates and of the transitions between them, and
    what decides about gaps. A transition that is too long or has no path has none. -/
structure Trace (P : LogProbabilities) where
  candidates : List ℕ
  emission : ℕ → ℕ → P.Value
  transition : ℕ → ℕ → ℕ → ℕ → Option P.Value
  timestamps : List ℕ
  allow_splitting : Bool

variable {P : LogProbabilities}

def Trace.size (trace : Trace P) (t : ℕ) : ℕ := trace.candidates.getD t 0

/-- The parents are pairs of `unsigned` in the code; here times and candidates have no bound. -/
structure HMM (P : LogProbabilities) where
  viterbi : ℕ → ℕ → P.Value
  viterbi_reachable : ℕ → ℕ → Bool
  parents : ℕ → ℕ → ℕ × ℕ
  pruned : ℕ → ℕ → Bool
  breakage : ℕ → Bool

def INVALID_STATE : ℕ := 2 ^ 64 - 1

def Clear (model : HMM P) (initial_timestamp : ℕ) : HMM P where
  viterbi t s := if initial_timestamp ≤ t then P.IMPOSSIBLE_LOG_PROB else model.viterbi t s
  viterbi_reachable t s := if initial_timestamp ≤ t then false else model.viterbi_reachable t s
  parents t s := if initial_timestamp ≤ t then (0,0) else model.parents t s
  pruned t s := if initial_timestamp ≤ t then true else model.pruned t s
  breakage t := if initial_timestamp ≤ t then true else model.breakage t

def cleared (P : LogProbabilities) : HMM P :=
  ⟨fun _ _ => P.IMPOSSIBLE_LOG_PROB,fun _ _ => false,fun _ _ => (0,0),fun _ _ => true,fun _ => true⟩
def assign {α : Type} (f : ℕ → ℕ → α) (t s : ℕ) (value : α) : ℕ → ℕ → α := Function.update f t (Function.update (f t) s value)

theorem assign_apply {α : Type} (f : ℕ → ℕ → α) (t s t' s' : ℕ) (value : α) :
    assign f t s value t' s' = if t' = t ∧ s' = s then value else f t' s' := by
  unfold assign
  by_cases point : t' = t
  · subst point
    by_cases candidate : s' = s
    · simp [candidate]
    · simp [candidate]
  · simp [point]

section Steps
variable (trace : Trace P)

def initializeCandidate (t : ℕ) (model : HMM P) (s : ℕ) : HMM P :=
  { model with
    viterbi := assign model.viterbi t s (trace.emission t s)
    parents := assign model.parents t s (t,s)
    pruned := assign model.pruned t s (P.lt (trace.emission t s) P.MINIMAL_LOG_PROB)
    breakage := Function.update model.breakage t (model.breakage t && P.lt (trace.emission t s) P.MINIMAL_LOG_PROB) }

def initializePoint (t : ℕ) (model : HMM P) : HMM P := (List.range (trace.size t)).foldl (initializeCandidate trace t) model

/-- The loop of `Initialize` over the points that are left; a point is only returned where another one follows. -/
def initializePoints : List ℕ → HMM P → HMM P × ℕ
  | [],model => (model,INVALID_STATE)
  | t :: rest,model =>
    let model' := initializePoint trace t model
    if rest = [] then (model',INVALID_STATE)
    else if model'.breakage t then initializePoints rest model' else (model',t)

def Initialize (initial_timestamp : ℕ) (model : HMM P) : HMM P × ℕ :=
  initializePoints trace (List.range' initial_timestamp (trace.candidates.length - initial_timestamp)) model

/-- The body of the two loops over the candidates of two points. -/
def relaxCandidate (prev t s : ℕ) (model : HMM P) (s_prime : ℕ) : HMM P :=
  let new_value := P.add (model.viterbi prev s) (trace.emission t s_prime)
  if P.lt new_value (model.viterbi t s_prime) then model
  else
    match trace.transition prev s t s_prime with
    | none => model
    | some transition_pr =>
      if P.lt (model.viterbi t s_prime) (P.add new_value transition_pr) then
        { model with
          viterbi := assign model.viterbi t s_prime (P.add new_value transition_pr)
          parents := assign model.parents t s_prime (prev,s)
          pruned := assign model.pruned t s_prime false
          breakage := Function.update model.breakage t false }
      else model

/-- All transitions between two points. -/
def relaxPoint (prev t : ℕ) (model : HMM P) : HMM P :=
  (List.range (trace.size prev)).foldl (fun model s =>
    if model.pruned prev s then model else (List.range (trace.size t)).foldl (relaxCandidate trace prev t s) model) model

end Steps

/-- A point was left alone. -/
structure SameAt (t : ℕ) (model model' : HMM P) : Prop where
  viterbi : model'.viterbi t = model.viterbi t
  parents : model'.parents t = model.parents t
  pruned : model'.pruned t = model.pruned t
  breakage : model'.breakage t = model.breakage t

variable {trace : Trace P} {model model' model'' : HMM P} {t t' prev s b k : ℕ}

theorem SameAt.refl (t : ℕ) (model : HMM P) : SameAt t model model := ⟨rfl,rfl,rfl,rfl⟩

theorem SameAt.trans (first : SameAt t model model') (second : SameAt t model' model'') : SameAt t model model'' :=
  ⟨second.viterbi.trans first.viterbi,second.parents.trans first.parents,second.pruned.trans first.pruned,
    second.breakage.trans first.breakage⟩

private theorem SameAt.foldl {step : HMM P → ℕ → HMM P} (same : ∀ model s, SameAt t model (step model s)) (l : List ℕ) (model : HMM P) :
    SameAt t model (l.foldl step model) := by
  induction l generalizing model with
  | nil => exact SameAt.refl t model
  | cons s rest ih => exact (same model s).trans (ih (step model s))

/-- The model after a candidate of `t` got a better value from one of `prev`. -/
def improved (model : HMM P) (prev s t s_prime : ℕ) (value : P.Value) : HMM P :=
  { model with
    viterbi := assign model.viterbi t s_prime value
    parents := assign model.parents t s_prime (prev,s)
    pruned := assign model.pruned t s_prime false
    breakage := Function.update model.breakage t false }

private theorem relaxCandidate_cases (trace : Trace P) (prev t s : ℕ) (model : HMM P) (s_prime : ℕ) :
    relaxCandidate trace prev t s model s_prime = model ∨ ∃ transition_pr, trace.transition prev s t s_prime = some transition_pr ∧
      P.lt (model.viterbi t s_prime) (P.add (P.add (model.viterbi prev s) (trace.emission t s_prime)) transition_pr) = true ∧
      relaxCandidate trace prev t s model s_prime =
        improved model prev s t s_prime (P.add (P.add (model.viterbi prev s) (trace.emission t s_prime)) transition_pr) := by
  unfold relaxCandidate
  dsimp only
  split
  · exact .inl rfl
  cases found : trace.transition prev s t s_prime with
  | none => exact .inl rfl
  | some transition_pr =>
    dsimp only
    split
    · rename_i better
      exact .inr ⟨transition_pr,rfl,better,rfl⟩
    · exact .inl rfl

section Improved
variable {s' : ℕ} {value : P.Value}

theorem improved_self (model : HMM P) (prev s t s_prime : ℕ) (value : P.Value) :
    (improved model prev s t s_prime value).viterbi t s_prime = value ∧
    (improved model prev s t s_prime value).parents t s_prime = (prev,s) ∧
    (improved model prev s t s_prime value).pruned t s_prime = false := by
  simp only [improved,assign_apply,and_self,if_true]

theorem improved_other {s_prime : ℕ} (other : s' ≠ s_prime) : (improved model prev s t s_prime value).viterbi t s' = model.viterbi t s' ∧
    (improved model prev s t s_prime value).parents t s' = model.parents t s' ∧
    (improved model prev s t s_prime value).pruned t s' = model.pruned t s' := by
  simp only [improved,assign_apply,other,and_false,if_false,and_self]

private theorem improved_sameAt {s_prime : ℕ} (other : t' ≠ t) : SameAt t' model (improved model prev s t s_prime value) :=
  ⟨by simp [improved,assign,other],by simp [improved,assign,other],by simp [improved,assign,other],by simp [improved,other]⟩

end Improved

theorem clear_sameAt (before : t < k) : SameAt t model (Clear model k) := by
  constructor <;> (simp [Clear,Nat.not_le.mpr before])

theorem initializePoint_sameAt (other : t ≠ t') : SameAt t model (initializePoint trace t' model) := by
  refine SameAt.foldl (fun model s => ⟨?_,?_,?_,?_⟩) _ model
  · simp [initializeCandidate,assign,other]
  · simp [initializeCandidate,assign,other]
  · simp [initializeCandidate,assign,other]
  · simp [initializeCandidate,other]

theorem relaxCandidate_sameAt (other : t ≠ t') (s_prime : ℕ) : SameAt t model (relaxCandidate trace prev t' s model s_prime) := by
  obtain unchanged | ⟨transition_pr,_,_,changed⟩ := relaxCandidate_cases trace prev t' s model s_prime
  · rw [unchanged]
    exact SameAt.refl t model
  · rw [changed]
    exact improved_sameAt other

/-- Relaxing a point changes no other point. -/
theorem relaxPoint_sameAt (other : t ≠ t') : SameAt t model (relaxPoint trace prev t' model) := by
  refine SameAt.foldl (fun model s => ?_) _ model
  split
  · exact SameAt.refl t model
  · exact SameAt.foldl (fun model s_prime => relaxCandidate_sameAt other s_prime) _ model

/-- A point that nothing reached. -/
structure Untouched (t : ℕ) (model : HMM P) : Prop where
  viterbi : ∀ s, model.viterbi t s = P.IMPOSSIBLE_LOG_PROB
  pruned : ∀ s, model.pruned t s = true
  breakage : model.breakage t = true

/-- A point is broken where all its candidates are pruned, and one that is not has a chance in itself. -/
structure Sound (trace : Trace P) (t : ℕ) (model : HMM P) : Prop where
  broken : model.breakage t = false ↔ ∃ s, model.pruned t s = false
  inside : ∀ s, model.pruned t s = false → s < trace.size t ∧ P.lt (trace.emission t s) P.MINIMAL_LOG_PROB = false

/-- A point that was reached from earlier ones: the parents of its candidates are candidates of points from the first
    one on that were not pruned, and the candidates that are pruned are less likely than those that are not. -/
structure Reached (trace : Trace P) (b t : ℕ) (model : HMM P) : Prop where
  impossible : ∀ s, model.pruned t s = true → model.viterbi t s = P.IMPOSSIBLE_LOG_PROB
  possible : ∀ s, model.pruned t s = false → P.lt P.IMPOSSIBLE_LOG_PROB (model.viterbi t s) = true
  parent : ∀ s, model.pruned t s = false → b ≤ (model.parents t s).1 ∧ (model.parents t s).1 < t ∧
    model.pruned (model.parents t s).1 (model.parents t s).2 = false

theorem clear_untouched (after : k ≤ t) : Untouched t (Clear model k) := by
  constructor <;> simp [Clear,after]
theorem Untouched.sameAt (untouched : Untouched t model) (same : SameAt t model model') : Untouched t model' :=
  ⟨fun s => by rw [same.viterbi,untouched.viterbi],fun s => by rw [same.pruned,untouched.pruned],by rw [same.breakage,untouched.breakage]⟩
theorem Untouched.sound (untouched : Untouched t model) : Sound trace t model :=
  ⟨by simp [untouched.breakage,untouched.pruned],fun s live => by simp [untouched.pruned] at live⟩
theorem Untouched.reached (untouched : Untouched t model) (b : ℕ) : Reached trace b t model :=
  ⟨fun s _ => untouched.viterbi s,fun s live => by simp [untouched.pruned] at live,fun s live => by simp [untouched.pruned] at live⟩
theorem Sound.sameAt (sound : Sound trace t model) (same : SameAt t model model') : Sound trace t model' :=
  ⟨by rw [same.breakage,same.pruned]; exact sound.broken,by rw [same.pruned]; exact sound.inside⟩

theorem Reached.sameAt (reached : Reached trace b t model) (same : ∀ t' ≤ t, SameAt t' model model') : Reached trace b t model' := by
  refine ⟨?_,?_,?_⟩
  · rw [(same t le_rfl).pruned,(same t le_rfl).viterbi]
    exact reached.impossible
  · rw [(same t le_rfl).pruned,(same t le_rfl).viterbi]
    exact reached.possible
  · rw [(same t le_rfl).pruned,(same t le_rfl).parents]
    intro s live
    obtain ⟨low,high,parent⟩ := reached.parent s live
    exact ⟨low,high,by rw [(same _ high.le).pruned]; exact parent⟩

/-- Some of the candidates of a point have their emissions only. -/
private structure Initialized (trace : Trace P) (t k : ℕ) (model : HMM P) : Prop where
  done : ∀ s < k, model.pruned t s = P.lt (trace.emission t s) P.MINIMAL_LOG_PROB
  later : ∀ s, k ≤ s → model.pruned t s = true
  broken : model.breakage t = true ↔ ∀ s < k, P.lt (trace.emission t s) P.MINIMAL_LOG_PROB = true

private theorem foldl_initializeCandidate (untouched : Untouched t model) (k : ℕ) :
    Initialized trace t k ((List.range k).foldl (initializeCandidate trace t) model) := by
  induction k with
  | zero => exact ⟨by simp,fun s _ => untouched.pruned s,by simp [untouched.breakage]⟩
  | succ k ih =>
    rw [range_succ,foldl_append]
    generalize (List.range k).foldl (initializeCandidate trace t) model = reached at ih
    simp only [foldl_cons,foldl_nil]
    refine ⟨fun s below => ?_,fun s above => ?_,?_⟩
    · simp only [initializeCandidate,assign_apply,true_and]
      by_cases last : s = k
      · rw [if_pos last,last]
      · rw [if_neg last]
        exact ih.done s (by omega)
    · simp only [initializeCandidate,assign_apply,true_and]
      rw [if_neg (by omega)]
      exact ih.later s (by omega)
    · simp only [initializeCandidate,Function.update_self,Bool.and_eq_true,ih.broken]
      constructor
      · rintro ⟨before,here⟩ s below
        rcases Nat.eq_or_lt_of_le (Nat.le_of_lt_succ below) with rfl | less
        · exact here
        · exact before s less
      · exact fun all => ⟨fun s below => all s (by omega),all k (by omega)⟩

private theorem initializePoint_sound (untouched : Untouched t model) : Sound trace t (initializePoint trace t model) ∧
    ((initializePoint trace t model).breakage t = true → ∀ s < trace.size t, P.lt (trace.emission t s) P.MINIMAL_LOG_PROB = true) := by
  have made : Initialized trace t (trace.size t) (initializePoint trace t model) := foldl_initializeCandidate untouched (trace.size t)
  have inside : ∀ s, (initializePoint trace t model).pruned t s = false → s < trace.size t := by
    intro s live
    by_contra outside
    rw [made.later s (by omega)] at live
    exact Bool.noConfusion live
  refine ⟨⟨?_,fun s live => ⟨inside s live,by rw [← made.done s (inside s live)]; exact live⟩⟩,made.broken.mp⟩
  rw [← Bool.not_eq_true,made.broken]
  constructor
  · intro some_chance
    by_contra none
    apply some_chance
    intro s below
    rw [← made.done s below]
    by_contra live
    exact none ⟨s,by simpa using live⟩
  · rintro ⟨s,live⟩ all
    have known := made.done s (inside s live)
    rw [live,all s (inside s live)] at known
    exact Bool.noConfusion known

/-- What `Initialize` finds: no point before the last one has a chance, or the first one that has. -/
structure Started (trace : Trace P) (k : ℕ) (model : HMM P) (start : ℕ) : Prop where
  first : k ≤ start
  inside : start + 1 < trace.candidates.length
  broken : ∀ t, k ≤ t → t < start → model.breakage t = true
  unbroken : model.breakage start = false
  sound : Sound trace start model
  untouched : ∀ t, start < t → Untouched t model

private theorem initializePoints_spec (c : ℕ) (size : k + c = trace.candidates.length) (untouched : ∀ t, k ≤ t → Untouched t model) :
    (∀ t < k, SameAt t model (initializePoints trace (List.range' k c) model).1) ∧
      (((initializePoints trace (List.range' k c) model).2 = INVALID_STATE ∧ ∀ t, k ≤ t → t + 1 < trace.candidates.length →
        ∀ s < trace.size t, P.lt (trace.emission t s) P.MINIMAL_LOG_PROB = true) ∨
      Started trace k (initializePoints trace (List.range' k c) model).1 (initializePoints trace (List.range' k c) model).2) := by
  induction c generalizing k model with
  | zero => exact ⟨fun t _ => SameAt.refl t model,.inl ⟨rfl,fun t low high => by omega⟩⟩
  | succ c ih =>
    obtain ⟨sound,none⟩ : Sound trace k (initializePoint trace k model) ∧ ((initializePoint trace k model).breakage k = true →
        ∀ s < trace.size k, P.lt (trace.emission k s) P.MINIMAL_LOG_PROB = true) := initializePoint_sound (untouched k le_rfl)
    rw [range'_succ,initializePoints]
    by_cases last : List.range' (k + 1) c = []
    · rw [if_pos last]
      have zero : c = 0 := by simpa using last
      exact ⟨fun t before => initializePoint_sameAt before.ne,.inl ⟨rfl,fun t low high => by omega⟩⟩
    · rw [if_neg last]
      have more : c ≠ 0 := by simpa using last
      cases broken : (initializePoint trace k model).breakage k with
      | false =>
        rw [if_neg (by simp)]
        refine ⟨fun t before => initializePoint_sameAt before.ne,.inr ⟨le_rfl,by omega,fun t low high => by omega,broken,sound,?_⟩⟩
        exact fun t after => (untouched t after.le).sameAt (initializePoint_sameAt after.ne')
      | true =>
        rw [if_pos rfl]
        have later : ∀ t, k + 1 ≤ t → Untouched t (initializePoint trace k model) :=
          fun t after => (untouched t (by omega)).sameAt (initializePoint_sameAt (by omega))
        obtain ⟨same,found⟩ := ih (by omega) later
        refine ⟨fun t before => (initializePoint_sameAt before.ne).trans (same t (by omega)),?_⟩
        cases found with
        | inl invalid =>
          refine .inl ⟨invalid.1,fun t low high s below => ?_⟩
          rcases Nat.eq_or_lt_of_le low with rfl | after
          · exact none broken s below
          · exact invalid.2 t after high s below
        | inr started =>
          refine .inr ⟨by have := started.first; omega,started.inside,fun t low high => ?_,started.unbroken,started.sound,started.untouched⟩
          rcases Nat.eq_or_lt_of_le low with rfl | after
          · rw [(same k (by omega)).breakage]
            exact broken
          · exact started.broken t after high

theorem initialize_spec (inside : k ≤ trace.candidates.length) (untouched : ∀ t, k ≤ t → Untouched t model) :
    (∀ t < k, SameAt t model (Initialize trace k model).1) ∧
      (((Initialize trace k model).2 = INVALID_STATE ∧ ∀ t, k ≤ t → t + 1 < trace.candidates.length →
        ∀ s < trace.size t, P.lt (trace.emission t s) P.MINIMAL_LOG_PROB = true) ∨
      Started trace k (Initialize trace k model).1 (Initialize trace k model).2) :=
  initializePoints_spec _ (by omega) untouched

private theorem relaxCandidate_reached (first : b ≤ prev) (before : prev < t) (live : model.pruned prev s = false) {s_prime : ℕ}
    (inside : s_prime < trace.size t) (sound : Sound trace t model) (reached : Reached trace b t model) :
    Sound trace t (relaxCandidate trace prev t s model s_prime) ∧ Reached trace b t (relaxCandidate trace prev t s model s_prime) := by
  obtain unchanged | ⟨transition_pr,_,better,changed⟩ := relaxCandidate_cases trace prev t s model s_prime
  · rw [unchanged]
    exact ⟨sound,reached⟩
  rw [changed]
  generalize known : P.add (P.add (model.viterbi prev s) (trace.emission t s_prime)) transition_pr = value at better
  have earlier : ∀ t' < t, (improved model prev s t s_prime value).pruned t' = model.pruned t' :=
    fun t' less => (improved_sameAt less.ne).pruned
  refine ⟨⟨?_,fun s' now => ?_⟩,fun s' now => ?_,fun s' now => ?_,fun s' now => ?_⟩
  · have unbroken : (improved model prev s t s_prime value).breakage t = false := Function.update_self ..
    exact iff_of_true unbroken ⟨s_prime,(improved_self model prev s t s_prime value).2.2⟩
  · by_cases here : s' = s_prime
    · subst here
      refine ⟨inside,?_⟩
      by_contra chance
      rw [Bool.not_eq_false] at chance
      rw [← known,P.not_lt_add _ _ _ _ chance] at better
      exact Bool.noConfusion better
    · rw [(improved_other here).2.2] at now
      exact sound.inside s' now
  · by_cases here : s' = s_prime
    · rw [here,(improved_self model prev s t s_prime value).2.2] at now
      exact Bool.noConfusion now
    · rw [(improved_other here).2.2] at now
      rw [(improved_other here).1]
      exact reached.impossible s' now
  · by_cases here : s' = s_prime
    · rw [here,(improved_self model prev s t s_prime value).1]
      cases old : model.pruned t s_prime with
      | true =>
        rw [← reached.impossible s_prime old]
        exact better
      | false => exact P.lt_trans _ _ _ (reached.possible s_prime old) better
    · rw [(improved_other here).2.2] at now
      rw [(improved_other here).1]
      exact reached.possible s' now
  · by_cases here : s' = s_prime
    · rw [here,(improved_self model prev s t s_prime value).2.1,earlier prev before]
      exact ⟨first,before,live⟩
    · rw [(improved_other here).2.2] at now
      rw [(improved_other here).2.1]
      obtain ⟨low,high,parent⟩ := reached.parent s' now
      rw [earlier _ high]
      exact ⟨low,high,parent⟩

theorem relaxPoint_reached (first : b ≤ prev) (before : prev < t) (untouched : Untouched t model) :
    Sound trace t (relaxPoint trace prev t model) ∧ Reached trace b t (relaxPoint trace prev t model) := by
  unfold relaxPoint
  refine foldl_invariant (fun _ m => Sound trace t m ∧ Reached trace b t m) _ ?_ model ⟨untouched.sound,untouched.reached b⟩
  rintro _ m s _ ⟨sound,reached⟩
  split
  · exact ⟨sound,reached⟩
  · rename_i live
    have inner : SameAt prev m ((List.range (trace.size t)).foldl (relaxCandidate trace prev t s) m) ∧
        Sound trace t ((List.range (trace.size t)).foldl (relaxCandidate trace prev t s) m) ∧
        Reached trace b t ((List.range (trace.size t)).foldl (relaxCandidate trace prev t s) m) := by
      refine foldl_invariant (fun _ m' => SameAt prev m m' ∧ Sound trace t m' ∧ Reached trace b t m') _ ?_ m
        ⟨SameAt.refl prev m,sound,reached⟩
      rintro _ m' s_prime member ⟨same,sound',reached'⟩
      have live' : m'.pruned prev s = false := by
        rw [same.pruned]
        simpa using live
      exact ⟨same.trans (relaxCandidate_sameAt before.ne s_prime),
        relaxCandidate_reached first before live' (mem_range.mp member) sound' reached'⟩
    exact inner.2

end Osrm.HiddenMarkovModel
