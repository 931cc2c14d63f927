import Osrm.Walks

/-!
Node contraction in the abstract. Removing a set of nodes that lie far enough apart keeps the distances between the
other nodes if every pair of arcs through a removed node is bypassed by a new arc or by a walk around that node.
-/
namespace Osrm.Contraction
open Walks
universe u
variable {V : Type u} {A A' : Arcs V} {C : V → Prop}

/-- A walk from `s` to `t` that is not the one over `v` alone: its first or its last arc is not at `v`. -/
def Aside (A : Arcs V) (v s t : V) (w : ℤ) : Prop :=
  ∃ x c k, x ≠ v ∧ c + k ≤ w ∧ (A s x c ∧ Walk A x t k ∨ Walk A s x k ∧ A x t c)

theorem Aside.of_around {v s t : V} {k w : ℤ} (walk : Walk (within (· ≠ v) A) s t k) (differ : s ≠ t) (le : k ≤ w) :
    Aside A v s t w := by
  cases walk with
  | nil => exact absurd rfl differ
  | cons arc rest => exact ⟨_,_,_,arc.2.1,le,.inl ⟨arc.2.2,rest.of_within⟩⟩

/-- One round: the nodes of `C` are removed from `A`, which becomes `A'`. -/
structure Round (A A' : Arcs V) (C : V → Prop) : Prop where
  positive : Positive A
  /-- An arc between remaining nodes stays or gets lighter. -/
  kept : ∀ u v w, ¬ C u → ¬ C v → A u v w → ∃ w' ≤ w, A' u v w'
  /-- Removed nodes are not adjacent. -/
  apart : ∀ u v w, C u → C v → A u v w → u = v
  /-- Removed nodes have no neighbour in common. -/
  twoHops : ∀ s v x a b, C v → C x → ¬ C s → A s v a → A s x b → x = v
  twoHopsBack : ∀ t v x a b, C v → C x → ¬ C t → A v t a → A x t b → x = v
  /-- A pair of arcs through a removed node is bypassed, unless a lighter walk makes it useless. -/
  bypass : ∀ v s t a b, C v → ¬ C s → ¬ C t → s ≠ t → A s v a → A v t b → (∀ k, Walk A s t k → a + b ≤ k) →
    (∃ w ≤ a + b, A' s t w) ∨ Aside A v s t (a + b)

theorem Round.preserves (round : Round A A' C) {u x : V} {n : ℤ} (start : ¬ C u) (final : ¬ C x)
    (walk : Walk A u x n) : ∃ m ≤ n, Walk (within (¬ C ·) A') u x m := by
  suffices all : ∀ n, 0 ≤ n → ∀ u x, ¬ C u → ¬ C x → Walk A u x n → ∃ m ≤ n, Walk (within (¬ C ·) A') u x m from
    all n (walk.nonneg round.positive) u x start final walk
  clear walk final start u x n
  refine weight_induction ?_
  intro n _ ih u x start final walk
  cases walk with
  | nil => exact ⟨0,le_rfl,.nil u⟩
  | @cons _ v _ a rest arc tail =>
    have aPos := round.positive _ _ _ arc
    have restNonneg := tail.nonneg round.positive
    by_cases removed : C v
    · -- the walk enters a removed node: leave it again and bypass the pair of arcs
      rcases tail.exit (P := (· = v)) rfl with ⟨same,_⟩ | ⟨v',t,loop,b,m,same,stay,out,leaves,tail',total⟩
      · exact absurd (same ▸ removed) final
      · obtain rfl : v' = v := same
        have bPos := round.positive _ _ _ out
        have loopNonneg := stay.nonneg (round.positive.within)
        have mNonneg := tail'.nonneg round.positive
        have tFree : ¬ C t := fun taken => leaves (round.apart _ _ _ removed taken out).symm
        obtain ⟨m',mLe,tail''⟩ := ih m mNonneg (by omega) t x tFree final tail'
        by_cases back : u = t
        · subst back
          exact ⟨m',by omega,tail''⟩
        by_cases best : ∀ k, Walk A u t k → a + b ≤ k
        · rcases round.bypass v' u t a b removed start tFree back arc out best with
            ⟨w,wLe,shortcut⟩ | ⟨y,c,k,aside,kLe,⟨first,later⟩ | ⟨earlier,last⟩⟩
          · exact ⟨w + m',by omega,.cons ⟨start,tFree,shortcut⟩ tail''⟩
          · have cPos := round.positive _ _ _ first
            have yFree : ¬ C y := fun taken => aside (round.twoHops u v' y a c removed taken start arc first)
            obtain ⟨w,wLe,kept⟩ := round.kept u y c start yFree first
            obtain ⟨k',kLe',later'⟩ := ih k (later.nonneg round.positive) (by omega) y t yFree tFree later
            exact ⟨w + (k' + m'),by omega,.cons ⟨start,yFree,kept⟩ (later'.append tail'')⟩
          · have cPos := round.positive _ _ _ last
            have yFree : ¬ C y := fun taken => aside (round.twoHopsBack t v' y b c removed taken tFree out last)
            obtain ⟨w,wLe,kept⟩ := round.kept y t c yFree tFree last
            obtain ⟨k',kLe',earlier'⟩ := ih k (earlier.nonneg round.positive) (by omega) u y start yFree earlier
            exact ⟨k' + (w + m'),by omega,earlier'.append (.cons ⟨yFree,tFree,kept⟩ tail'')⟩
        · push Not at best
          obtain ⟨k,lighter,less⟩ := best
          have kNonneg := lighter.nonneg round.positive
          obtain ⟨k',kLe,new⟩ := ih (k + m) (by omega) (by omega) u x start final (lighter.append tail')
          exact ⟨k',by omega,new⟩
    · obtain ⟨w,wLe,kept⟩ := round.kept u v a start removed arc
      obtain ⟨m,mLe,tail'⟩ := ih rest restNonneg (by omega) v x removed final tail
      exact ⟨w + m,by omega,.cons ⟨start,removed,kept⟩ tail'⟩

/-- Every walk of `A` can be replaced by arcs up from both ends and a walk through the nodes that are left. -/
def UpDown (A F B core : Arcs V) : Prop :=
  ∀ s t n, Walk A s t n → ∃ x y a b m, Walk F s x a ∧ Walk B t y b ∧ Walk core x y m ∧ a + b + m ≤ n

theorem UpDown.start (A F B : Arcs V) : UpDown A F B A :=
  fun s t n walk => ⟨s,t,0,0,n,.nil s,.nil t,walk,by omega⟩

variable {F B F' B' core core' : Arcs V}

private theorem climb (core : Arcs V) (positive : Positive core) (apart : ∀ u v w, C u → C v → core u v w → u = v)
    (up : ∀ v u w, C v → v ≠ u → core v u w → ∃ w' ≤ w, F v u w') {x y : V} {m : ℤ} (walk : Walk core x y m)
    (differ : x ≠ y) : ∃ x' a m', Walk F x x' a ∧ Walk core x' y m' ∧ a + m' ≤ m ∧ ¬ C x' := by
  by_cases removed : C x
  · rcases walk.exit (P := (· = x)) rfl with ⟨same,_⟩ | ⟨x',t,loop,w,m',same,stay,out,leaves,tail,total⟩
    · exact absurd same.symm differ
    · obtain rfl : x' = x := same
      have loopNonneg := stay.nonneg positive.within
      obtain ⟨w',wLe,arc⟩ := up _ t w removed (fun same => leaves same.symm) out
      exact ⟨t,w',m',.single arc,tail,by omega,fun taken => leaves (apart _ _ _ removed taken out).symm⟩
  · exact ⟨x,0,m,.nil x,walk,by omega,removed⟩

theorem UpDown.step (upDown : UpDown A F B core) (round : Round core core' C)
    (moreF : ∀ u v w, F u v w → F' u v w) (moreB : ∀ u v w, B u v w → B' u v w)
    (upF : ∀ v u w, C v → v ≠ u → core v u w → ∃ w' ≤ w, F' v u w')
    (upB : ∀ v u w, C v → v ≠ u → core u v w → ∃ w' ≤ w, B' v u w') :
    UpDown A F' B' (within (¬ C ·) core') := by
  intro s t n walk
  obtain ⟨x,y,a,b,m,up,down,middle,total⟩ := upDown s t n walk
  have up' := up.mono moreF
  have down' := down.mono moreB
  have mNonneg := middle.nonneg round.positive
  by_cases met : x = y
  · subst met
    exact ⟨x,x,a,b,0,up',down',.nil x,by omega⟩
  · obtain ⟨x',a',m',upX,middle',le,xFree⟩ := climb core round.positive round.apart upF middle met
    have m'Nonneg := middle'.nonneg round.positive
    by_cases met' : x' = y
    · subst met'
      exact ⟨x',x',a + a',b,0,up'.append upX,down',.nil x',by omega⟩
    · obtain ⟨y',b',m'',upY,middle'',le',yFree⟩ := climb (reverse core) round.positive.reverse
        (fun u v w cu cv arc => (round.apart v u w cv cu arc).symm) upB middle'.reversed (Ne.symm met')
      obtain ⟨k,kLe,new⟩ := round.preserves xFree yFree middle''.of_reverse
      exact ⟨x',y',a + a',b + b',k,up'.append upX,down'.append upY,new,by omega⟩

theorem UpDown.meet (upDown : UpDown A F B core) (done : ∀ u v w, ¬ core u v w) {s t : V} {n : ℤ}
    (walk : Walk A s t n) : ∃ x a b, Walk F s x a ∧ Walk B t x b ∧ a + b ≤ n := by
  obtain ⟨x,y,a,b,m,up,down,middle,total⟩ := upDown s t n walk
  cases middle with
  | nil => exact ⟨x,a,b,up,down,by omega⟩
  | cons arc _ => exact absurd arc (done _ _ _)

/-- What a search needs of a hierarchy for `A`: arcs stand for walks, and up from its ends every walk is matched. -/
structure Climb (A F B : Arcs V) : Prop where
  positiveF : Positive F
  positiveB : Positive B
  soundF : ∀ u v w, F u v w → ∃ m ≤ w, Walk A u v m
  soundB : ∀ u v w, B u v w → ∃ m ≤ w, Walk A v u m
  meet : ∀ s t n, Walk A s t n → ∃ x a b, Walk F s x a ∧ Walk B t x b ∧ a + b ≤ n

theorem Climb.flip (climb : Climb A F B) : Climb (reverse A) B F where
  positiveF := climb.positiveB
  positiveB := climb.positiveF
  soundF u v w arc := by
    obtain ⟨m,mLe,walk⟩ := climb.soundB u v w arc
    exact ⟨m,mLe,walk.reversed⟩
  soundB u v w arc := by
    obtain ⟨m,mLe,walk⟩ := climb.soundF u v w arc
    exact ⟨m,mLe,walk.reversed⟩
  meet s t n walk := by
    obtain ⟨x,a,b,up,down,le⟩ := climb.meet t s n walk.of_reverse
    exact ⟨x,b,a,down,up,by omega⟩

theorem Climb.walkF (climb : Climb A F B) {u v : V} {n : ℤ} (walk : Walk F u v n) : ∃ m ≤ n, Walk A u v m :=
  walk.lift climb.soundF

end Osrm.Contraction
