import Mathlib.Data.List.Infix
import Mathlib.Data.List.TakeWhile
import Mathlib.Control.Monad.Basic

/-!
# Parsing expressions

Ordered choice, lists and look ahead over the list of the tokens that are left. `Reads p P` says that what `p` returns has the
property `P` and that `p` leaves a suffix of its input; there is one rule for each way to build an expression.
-/
namespace Osrm.ParsingExpressions
open List

variable {τ α β : Type} {P : α → Prop} {Q : β → Prop}

abbrev Parse (τ α : Type) := StateT (List τ) Option α
def satisfies (test : τ → Bool) : Parse τ τ
  | [] => none
  | token :: rest => if test token then some (token,rest) else none
def exactly [BEq τ] (text : List τ) : Parse τ Unit := fun input =>
  if text.isPrefixOf input then some ((),input.drop text.length) else none
/-- `least` tokens or more, as many as there are, but not more than `most`. -/
def span (least : ℕ) (most : Option ℕ) (test : τ → Bool) : Parse τ (List τ) := fun input =>
  let text := (input.take (most.getD input.length)).takeWhile test
  if text.length < least then none else some (text,input.drop text.length)
def ending : Parse τ Unit
  | [] => some ((),[])
  | _ => none
def skipping (blank : τ → Bool) (p : Parse τ α) : Parse τ α := fun input => p (input.dropWhile blank)
def check (p : Parse τ α) (test : α → Bool) : Parse τ α := do
  let a ← p
  if test a then pure a else failure
def opt (default : α) (p : Parse τ α) : Parse τ α := p <|> pure default
def ahead (p : Parse τ α) : Parse τ Bool := fun input => some ((p input).isSome,input)
def symbols (word : List τ → Parse τ Unit) : List (List τ × α) → Parse τ α
  | [] => failure
  | (name,value) :: table => (do word name; pure value) <|> symbols word table

/-- At most `fuel` times. -/
def manyFuel (p : Parse τ α) : ℕ → List τ → List α × List τ
  | 0,input => ([],input)
  | fuel + 1,input =>
    match p input with
    | none => ([],input)
    | some (a,rest) => ((a :: (manyFuel p fuel rest).1),(manyFuel p fuel rest).2)

/-- As often as possible; an input of `n` tokens can be read `n` times. -/
def many (p : Parse τ α) : Parse τ (List α) := fun input => some (manyFuel p input.length input)

/-- `p % separator`. -/
def sepBy (p : Parse τ α) (separator : Parse τ β) : Parse τ (List α) := do
  let a ← p
  let as ← many do
    let _ ← separator
    p
  pure (a :: as)

/-! ## What an expression reads -/

def Reads (p : Parse τ α) (P : α → Prop) : Prop := ∀ input a rest, p input = some (a,rest) → rest <:+ input ∧ P a

variable {p : Parse τ α}

theorem Reads.mono {P' : α → Prop} (reads : Reads p P) (weaker : ∀ a, P a → P' a) : Reads p P' :=
  fun input a rest read => ⟨(reads input a rest read).1,weaker a (reads input a rest read).2⟩
theorem Reads.trivial (reads : Reads p P) : Reads p fun _ => True := reads.mono fun _ _ => True.intro

theorem reads_pure {a : α} (holds : P a) : Reads (pure a : Parse τ α) P := by
  intro input a' rest read
  cases read
  exact ⟨suffix_refl _,holds⟩

theorem reads_failure : Reads (failure : Parse τ α) P := by
  intro input a rest read
  cases read

theorem reads_bind {f : α → Parse τ β} (first : Reads p P) (second : ∀ a, P a → Reads (f a) Q) :
    Reads (p >>= f) Q := by
  intro input b rest read
  change (p input).bind (fun found => f found.1 found.2) = some (b,rest) at read
  obtain ⟨⟨a,between⟩,readFirst,readSecond⟩ := Option.bind_eq_some_iff.mp read
  obtain ⟨shorter,holds⟩ := first input a between readFirst
  obtain ⟨shorter',holds'⟩ := second a holds between b rest readSecond
  exact ⟨shorter'.trans shorter,holds'⟩

private theorem orElse_some {p q : Parse τ α} {input : List τ} {result : α × List τ} (read : (p <|> q) input = some result) :
    p input = some result ∨ q input = some result := by
  change (p input <|> q input) = some result at read
  cases found : p input with
  | none => exact .inr (by simpa [found] using read)
  | some _ => exact .inl (by simpa [found] using read)

theorem reads_orElse {p q : Parse τ α} (left : Reads p P) (right : Reads q P) : Reads (p <|> q) P := by
  intro input a rest read
  cases orElse_some read with
  | inl read => exact left input a rest read
  | inr read => exact right input a rest read

theorem reads_opt {default : α} (reads : Reads p P) (holds : P default) : Reads (opt default p) P :=
  reads_orElse reads (reads_pure holds)

theorem reads_satisfies {test : τ → Bool} : Reads (satisfies test) fun token => test token := by
  intro input token rest read
  cases input with
  | nil => cases read
  | cons first tail =>
    simp only [satisfies] at read
    split_ifs at read with passed
    cases read
    exact ⟨suffix_cons _ _,passed⟩

theorem reads_exactly [BEq τ] {text : List τ} : Reads (exactly text) fun _ => True := by
  intro input a rest read
  unfold exactly at read
  split_ifs at read
  cases read
  exact ⟨drop_suffix _ _,True.intro⟩

theorem reads_span {least : ℕ} {most : Option ℕ} {test : τ → Bool} : Reads (span least most test)
    fun text => least ≤ text.length ∧ (∀ count ∈ most, text.length ≤ count) ∧ ∀ token ∈ text, test token := by
  intro input text rest read
  simp only [span] at read
  split_ifs at read with short
  cases read
  refine ⟨drop_suffix _ _,not_lt.mp short,?_,fun token member => ?_⟩
  · rintro count rfl
    exact ( takeWhile_prefix _).length_le.trans (length_take_le _ _)
  · exact mem_takeWhile_imp member

theorem reads_skipping {blank : τ → Bool} (reads : Reads p P) : Reads (skipping blank p) P := by
  intro input a rest read
  obtain ⟨shorter,holds⟩ := reads (input.dropWhile blank) a rest read
  exact ⟨shorter.trans (dropWhile_suffix _),holds⟩

theorem reads_check {test : α → Bool} (reads : Reads p P) : Reads (check p test) fun a => P a ∧ test a := by
  refine reads_bind reads fun a holds => ?_
  split_ifs with passed
  · exact reads_pure ⟨holds,passed⟩
  · exact reads_failure

theorem reads_ahead : Reads (ahead p) fun _ => True := by
  intro input a rest read
  cases read
  exact ⟨suffix_refl _,True.intro⟩

theorem reads_symbols {word : List τ → Parse τ Unit} (words : ∀ name, Reads (word name) fun _ => True)
    {table : List (List τ × α)} (holds : ∀ entry ∈ table, P entry.2) : Reads (symbols word table) P := by
  induction table with
  | nil => exact reads_failure
  | cons entry table ih =>
    refine reads_orElse (reads_bind (words entry.1) fun _ _ => reads_pure (holds entry (by simp))) ?_
    exact ih fun other member => holds other (by simp [member])

private theorem manyFuel_reads (reads : Reads p P) (fuel : ℕ) (input : List τ) :
    (manyFuel p fuel input).2 <:+ input ∧ ∀ a ∈ (manyFuel p fuel input).1, P a := by
  induction fuel generalizing input with
  | zero => simp [manyFuel]
  | succ fuel ih =>
    cases found : p input with
    | none => simp [manyFuel,found]
    | some result =>
      obtain ⟨shorter,holds⟩ := reads input result.1 result.2 found
      obtain ⟨shorter',holds'⟩ := ih result.2
      simp only [manyFuel,found,mem_cons,forall_eq_or_imp]
      exact ⟨shorter'.trans shorter,holds,holds'⟩

theorem reads_many (reads : Reads p P) : Reads (many p) fun as => ∀ a ∈ as, P a := by
  intro input as rest read
  obtain ⟨shorter,holds⟩ := manyFuel_reads reads input.length input
  rw [Option.some_inj.mp read] at shorter holds
  exact ⟨shorter,holds⟩

theorem reads_sepBy {separator : Parse τ β} (items : Reads p P) (between : Reads separator fun _ => True) :
    Reads (sepBy p separator) fun as => ∀ a ∈ as, P a := by
  refine reads_bind items fun a holds => reads_bind (reads_many (reads_bind between fun _ _ => items)) fun as all => ?_
  exact reads_pure (by simpa using ⟨holds,all⟩)

end Osrm.ParsingExpressions
