import Mathlib.Tactic

/-!
Weighted directed graphs as relations and the walks in them. A graph need not be
finite and may hold parallel arcs; weights are integers, and the results that
need a least walk ask for positive weights.
-/
namespace Osrm.Walks
universe u
variable {V : Type u}

/-- A weighted directed graph: `A u v w` holds where an arc of weight `w` leads
    from `u` to `v`. -/
abbrev Arcs (V : Type u) := V → V → ℤ → Prop

/-- `Walk A u v n`: the arcs of some walk from `u` to `v` weigh `n` together. -/
inductive Walk (A : Arcs V) : V → V → ℤ → Prop
  | nil (v : V) : Walk A v v 0
  | cons {u v x : V} {w n : ℤ} (arc : A u v w) (rest : Walk A v x n) : Walk A u x (w + n)

/-- `Path A u v nodes n`: a walk together with the nodes it visits. -/
inductive Path (A : Arcs V) : V → V → List V → ℤ → Prop
  | single (v : V) : Path A v v [v] 0
  | cons {u v x : V} {w n : ℤ} {nodes : List V} (arc : A u v w) (rest : Path A v x nodes n) :
      Path A u x (u :: nodes) (w + n)

/-- Every arc weighs at least one. -/
def Positive (A : Arcs V) : Prop := ∀ u v w, A u v w → 0 < w
/-- The arcs between the nodes of a set. -/
def within (P : V → Prop) (A : Arcs V) : Arcs V := fun u v w => P u ∧ P v ∧ A u v w
/-- Every arc turned round. -/
def reverse (A : Arcs V) : Arcs V := fun u v w => A v u w
/-- Some walk leads from `u` to `v`. -/
def Reachable (A : Arcs V) (u v : V) : Prop := ∃ n, Walk A u v n
/-- `d` is the shortest-path distance from `u` to `v`. -/
def Shortest (A : Arcs V) (u v : V) (d : ℤ) : Prop := Walk A u v d ∧ ∀ n, Walk A u v n → d ≤ n

variable {A B : Arcs V} {P Q : V → Prop} {u v x y : V} {w n m d : ℤ}

theorem Walk.single (arc : A u v w) : Walk A u v w := by
  simpa using Walk.cons arc (.nil v)

theorem Walk.append (left : Walk A u v n) (right : Walk A v x m) : Walk A u x (n + m) := by
  induction left with
  | nil => simpa using right
  | cons arc _ ih => simpa [add_assoc] using Walk.cons arc (ih right)

theorem Walk.snoc (walk : Walk A u v n) (arc : A v x w) : Walk A u x (n + w) := walk.append (.single arc)

theorem Walk.expand (arcs : ∀ u v w, A u v w → Walk B u v w) (walk : Walk A u v n) : Walk B u v n := by
  induction walk with
  | nil => exact .nil _
  | cons arc _ ih => exact (arcs _ _ _ arc).append ih

/-- A graph with lighter walks for all arcs has lighter walks. -/
theorem Walk.lift (arcs : ∀ u v w, A u v w → ∃ m ≤ w, Walk B u v m) (walk : Walk A u v n) :
    ∃ m ≤ n, Walk B u v m := by
  induction walk with
  | nil => exact ⟨0,le_rfl,.nil _⟩
  | cons arc _ ih =>
    obtain ⟨a,aLe,first⟩ := arcs _ _ _ arc
    obtain ⟨b,bLe,rest⟩ := ih
    exact ⟨a + b,by omega,first.append rest⟩

/-- A walk over some of the arcs of a graph is one of it. -/
theorem Walk.mono (arcs : ∀ u v w, A u v w → B u v w) (walk : Walk A u v n) : Walk B u v n :=
  walk.expand fun u v w arc => .single (arcs u v w arc)

theorem Walk.reversed (walk : Walk A u v n) : Walk (reverse A) v u n := by
  induction walk with
  | nil => exact .nil _
  | @cons a b c w n arc _ ih => simpa [add_comm] using ih.snoc (show reverse A b a w from arc)

theorem Walk.of_reverse (walk : Walk (reverse A) u v n) : Walk A v u n := walk.reversed
theorem Walk.of_within (walk : Walk (within P A) u v n) : Walk A u v n := walk.mono fun _ _ _ arc => arc.2.2
theorem within_mono (sub : ∀ x, P x → Q x) (u v : V) (w : ℤ) (arc : within P A u v w) : within Q A u v w :=
  ⟨sub _ arc.1,sub _ arc.2.1,arc.2.2⟩

@[simp] theorem within_univ : within (fun _ => True) A = A := by
  funext u v w
  simp [within]

variable {nodes : List V}

theorem Path.walk (path : Path A u v nodes n) : Walk A u v n := by
  induction path with
  | single => exact .nil _
  | cons arc _ ih => exact .cons arc ih

theorem Path.snoc (path : Path A u v nodes n) (arc : A v x w) : Path A u x (nodes ++ [x]) (n + w) := by
  induction path with
  | single => simpa using Path.cons arc (.single x)
  | cons first _ ih => simpa [add_assoc] using Path.cons first (ih arc)

theorem Path.mono (arcs : ∀ u v w, A u v w → B u v w) (path : Path A u v nodes n) : Path B u v nodes n := by
  induction path with
  | single => exact .single _
  | cons arc _ ih => exact .cons (arcs _ _ _ arc) ih

theorem Path.first (path : Path A u v nodes n) : ∃ back, nodes = u :: back := by
  cases path with
  | single => exact ⟨[],rfl⟩
  | @cons _ _ _ _ _ nodes _ _ => exact ⟨nodes,rfl⟩

theorem Path.last (path : Path A u v nodes n) : ∃ front, nodes = front ++ [v] := by
  induction path with
  | single v => exact ⟨[],rfl⟩
  | @cons u _ _ _ _ _ _ _ ih =>
    obtain ⟨front,rfl⟩ := ih
    exact ⟨u :: front,rfl⟩

theorem Path.join {front back : List V} (left : Path A u v (front ++ [v]) n) (right : Path A v x (v :: back) m) :
    Path A u x (front ++ v :: back) (n + m) := by
  induction front generalizing u n with
  | nil =>
    cases left with
    | single => simpa using right
    | cons _ rest => cases rest
  | cons a front ih =>
    generalize whole : a :: front ++ [v] = nodes at left
    cases left with
    | single => simp at whole
    | cons arc rest =>
      obtain ⟨rfl,rfl⟩ : a = u ∧ front ++ [v] = _ := by simpa using whole
      simpa [add_assoc] using Path.cons arc (ih rest)

theorem Walk.map {W : Type*} {B : Arcs W} (f : V → W) (arcs : ∀ u v w, A u v w → B (f u) (f v) w)
    (walk : Walk A u v n) : Walk B (f u) (f v) n := by
  induction walk with
  | nil => exact .nil _
  | cons arc _ ih => exact .cons (arcs _ _ _ arc) ih

theorem Positive.reverse (positive : Positive A) : Positive (reverse A) := fun u v w arc => positive v u w arc
theorem Positive.within (positive : Positive A) : Positive (within P A) := fun u v w arc => positive u v w arc.2.2

/-- No walk over positive arcs is below zero. -/
theorem Walk.nonneg (positive : Positive A) (walk : Walk A u v n) : 0 ≤ n := by
  induction walk with
  | nil => exact le_rfl
  | cons arc _ ih => have := positive _ _ _ arc; omega

theorem Walk.eq_of_nonpos (positive : Positive A) (walk : Walk A u v n) (low : n ≤ 0) : u = v := by
  cases walk with
  | nil => rfl
  | cons arc rest =>
    have first := positive _ _ _ arc
    have tail := rest.nonneg positive
    omega

theorem Walk.within_ends (walk : Walk (within P A) u v n) : u = v ∨ P u ∧ P v := by
  induction walk with
  | nil => exact .inl rfl
  | cons arc _ ih =>
    rcases ih with same | ⟨_,last⟩
    · exact .inr ⟨arc.1,same ▸ arc.2.1⟩
    · exact .inr ⟨arc.1,last⟩

theorem Walk.last (walk : Walk A u v n) : (u = v ∧ n = 0) ∨ ∃ x w m, Walk A u x m ∧ A x v w ∧ n = m + w := by
  induction walk with
  | nil => exact .inl ⟨rfl,rfl⟩
  | @cons a b c w n arc rest ih =>
    rcases ih with ⟨rfl,rfl⟩ | ⟨x,w',m,start,final,rfl⟩
    · exact .inr ⟨a,w,0,.nil a,arc,by omega⟩
    · exact .inr ⟨x,w',w + m,.cons arc start,final,by omega⟩

/-- A walk stays inside or leaves by a first arc. -/
theorem Walk.exit (walk : Walk A u v n) (inside : P u) :
    (P v ∧ Walk (within P A) u v n) ∨
      ∃ x y k w m, P x ∧ Walk (within P A) u x k ∧ A x y w ∧ ¬ P y ∧ Walk A y v m ∧ n = k + w + m := by
  induction walk with
  | nil => exact .inl ⟨inside,.nil _⟩
  | @cons a b c w n arc rest ih =>
    by_cases next : P b
    · rcases ih next with ⟨last,stays⟩ | ⟨x,y,k,w',m,px,stays,leave,py,tail,total⟩
      · exact .inl ⟨last,.cons ⟨inside,next,arc⟩ stays⟩
      · exact .inr ⟨x,y,w + k,w',m,px,.cons ⟨inside,next,arc⟩ stays,leave,py,tail,by omega⟩
    · exact .inr ⟨a,b,0,w,n,inside,.nil a,arc,next,rest,by omega⟩

/-- Strong induction on weights. -/
theorem weight_induction {motive : ℤ → Prop}
    (step : ∀ n, 0 ≤ n → (∀ m, 0 ≤ m → m < n → motive m) → motive n) : ∀ n, 0 ≤ n → motive n := by
  have natural : ∀ (k : ℕ) (n : ℤ), 0 ≤ n → n < k → motive n := by
    intro k
    induction k with
    | zero => intro n low high; omega
    | succ k ih => exact fun n low high => step n low fun m mLow mHigh => ih m mLow (by omega)
  exact fun n low => natural (n.toNat + 1) n low (by omega)

/-- With positive arcs a reachable node has a distance. -/
theorem exists_shortest (positive : Positive A) (reachable : Reachable A u v) : ∃ d, Shortest A u v d := by
  obtain ⟨n,walk⟩ := reachable
  have search : ∀ n, 0 ≤ n → Walk A u v n → ∃ d, Shortest A u v d := by
    refine weight_induction ?_
    intro n _ ih walk
    by_cases least : ∀ m, Walk A u v m → n ≤ m
    · exact ⟨n,walk,least⟩
    · push Not at least
      obtain ⟨m,shorter,less⟩ := least
      exact ih m (shorter.nonneg positive) less shorter
  exact search n (walk.nonneg positive) walk

theorem Shortest.unique {d' : ℤ} (one : Shortest A u v d) (other : Shortest A u v d') : d = d' :=
  le_antisymm (one.2 _ other.1) (other.2 _ one.1)

/-- Graphs that bound each other have the same distances. -/
theorem shortest_congr (down : ∀ n, Walk A u v n → ∃ m ≤ n, Walk B u v m)
    (up : ∀ n, Walk B u v n → ∃ m ≤ n, Walk A u v m) (d : ℤ) : Shortest A u v d ↔ Shortest B u v d := by
  have transfer : ∀ {A B : Arcs V}, (∀ n, Walk A u v n → ∃ m ≤ n, Walk B u v m) →
      (∀ n, Walk B u v n → ∃ m ≤ n, Walk A u v m) → Shortest A u v d → Shortest B u v d := by
    rintro A B down up ⟨walk,least⟩
    obtain ⟨m,mLe,other⟩ := down d walk
    have atMost : ∀ n, Walk B u v n → d ≤ n := by
      intro n other
      obtain ⟨k,kLe,back⟩ := up n other
      exact (least k back).trans kLe
    have same : m = d := le_antisymm mLe (atMost m other)
    exact ⟨same ▸ other,atMost⟩
  exact ⟨transfer down up,transfer up down⟩

end Osrm.Walks
