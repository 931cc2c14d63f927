import Mathlib.Tactic

/-!
`while` loops as functions with fuel, and the rule that proves such a loop total:
an invariant the body keeps and a measure the body decreases. Loops over a list have
rules with an invariant that mentions the elements that are done. A run that may be
undefined ends exactly where a condition holds.
-/
namespace Osrm.Loops
open List
universe u
variable {σ : Type u}

/-- `while (cond s) s = body s`, giving up with `none` once the fuel is spent. -/
def whileLoop (cond : σ → Bool) (body : σ → σ) : ℕ → σ → Option σ
  | 0, s => if cond s then none else some s
  | fuel + 1, s => if cond s then whileLoop cond body fuel (body s) else some s

variable {cond : σ → Bool}

/-- A loop with a falling measure ends. -/
theorem whileLoop_total {body : σ → σ} (Inv : σ → Prop) (measure : σ → ℕ) (keeps : ∀ s, Inv s → cond s = true → Inv (body s))
    (decreases : ∀ s, Inv s → cond s = true → measure (body s) < measure s)
    (fuel : ℕ) (s : σ) (start : Inv s) (enough : measure s ≤ fuel) :
    ∃ final, whileLoop cond body fuel s = some final ∧ Inv final ∧ cond final = false := by
  induction fuel generalizing s with
  | zero =>
    by_cases more : cond s = true
    · have := decreases s start more
      omega
    · exact ⟨s,by simp [whileLoop,more],start,by simpa using more⟩
  | succ fuel ih =>
    by_cases more : cond s = true
    · have less := decreases s start more
      obtain ⟨final,ran,inv,stopped⟩ := ih (body s) (keeps s start more) (by omega)
      exact ⟨final,by simp [whileLoop,more,ran],inv,stopped⟩
    · exact ⟨s,by simp [whileLoop,more],start,by simpa using more⟩

theorem whileLoop_invariant {body : σ → σ} (Inv : σ → Prop)
    (keeps : ∀ s, Inv s → cond s = true → Inv (body s)) {fuel : ℕ} {s final : σ} (start : Inv s)
    (ran : whileLoop cond body fuel s = some final) : Inv final := by
  induction fuel generalizing s with
  | zero =>
    by_cases more : cond s = true
    · simp [whileLoop,more] at ran
    · obtain rfl : s = final := by simpa [whileLoop,more] using ran
      exact start
  | succ fuel ih =>
    by_cases more : cond s = true
    · simp only [whileLoop,more,if_true] at ran
      exact ih (keeps s start more) ran
    · obtain rfl : s = final := by simpa [whileLoop,more] using ran
      exact start

theorem whileLoop_map {τ : Type u} {body : σ → σ} {cond' : τ → Bool} {body' : τ → τ} (f : σ → τ)
    (conds : ∀ s, cond' (f s) = cond s) (bodies : ∀ s, cond s = true → body' (f s) = f (body s)) (fuel : ℕ) (s : σ) :
    whileLoop cond' body' fuel (f s) = (whileLoop cond body fuel s).map f := by
  induction fuel generalizing s with
  | zero =>
    rw [whileLoop,whileLoop,conds]
    split <;> rfl
  | succ fuel ih =>
    rw [whileLoop,whileLoop,conds]
    split
    · rename_i more
      rw [bodies s more,ih]
    · rfl

/-- More fuel does not change the result. -/
theorem whileLoop_mono {body : σ → σ} {fuel more : ℕ} {s final : σ}
    (ran : whileLoop cond body fuel s = some final) (le : fuel ≤ more) :
    whileLoop cond body more s = some final := by
  induction fuel generalizing s more with
  | zero =>
    have stopped : cond s = false := by
      by_contra running
      simp [whileLoop,running] at ran
    cases more <;> simpa [whileLoop,stopped] using ran
  | succ fuel ih =>
    obtain ⟨k,rfl⟩ : ∃ k, more = k + 1 := ⟨more - 1,by omega⟩
    by_cases running : cond s = true
    · simp only [whileLoop,running,if_true] at ran ⊢
      exact ih ran (by omega)
    · simpa [whileLoop,running] using ran

variable {α : Type*}

theorem forall_mem_concat {P : α → Prop} {done : List α} {a : α} (old : ∀ x ∈ done, P x) (new : P a) :
    ∀ x ∈ done ++ [a], P x :=
  forall_mem_append.mpr ⟨old,forall_mem_singleton.mpr new⟩

/-- The rule for a loop over a list. -/
theorem foldl_invariant (Inv : List α → σ → Prop) {step : σ → α → σ} (l : List α)
    (body : ∀ done s a, a ∈ l → Inv done s → Inv (done ++ [a]) (step s a)) (s : σ) (start : Inv [] s) :
    Inv l (l.foldl step s) := by
  suffices all : ∀ rest done s, done ++ rest = l → Inv done s → Inv l (rest.foldl step s) from all l [] s rfl start
  intro rest
  induction rest with
  | nil =>
    intro done s whole inv
    rw [append_nil] at whole
    exact whole ▸ inv
  | cons a rest ih =>
    intro done s whole inv
    exact ih (done ++ [a]) (step s a) (by simpa using whole) (body done s a (by simp [← whole]) inv)

/-- An invariant of the bodies that return. -/
theorem foldlM_invariant (Inv : σ → Prop) {step : σ → α → Option σ} {l : List α}
    (body : ∀ s a next, a ∈ l → Inv s → step s a = some next → Inv next) {s final : σ} (start : Inv s)
    (ran : l.foldlM step s = some final) : Inv final := by
  induction l generalizing s with
  | nil =>
    obtain rfl : s = final := by simpa using ran
    exact start
  | cons a rest ih =>
    rw [foldlM_cons] at ran
    obtain ⟨next,first,later⟩ := Option.bind_eq_some_iff.mp ran
    exact ih (fun s b next inside => body s b next (mem_cons_of_mem _ inside)) (body s a next (by simp) start first) later

/-- A loop of total bodies is total. -/
theorem foldlM_total (Inv : List α → σ → Prop) {step : ℕ → σ → α → Option σ} (l : List α)
    (body : ∀ done s a, a ∈ l → Inv done s → ∃ fuel next, (∀ more ≥ fuel, step more s a = some next) ∧
      Inv (done ++ [a]) next) (s : σ) (start : Inv [] s) :
    ∃ fuel final, (∀ more ≥ fuel, l.foldlM (step more) s = some final) ∧ Inv l final := by
  suffices all : ∀ rest done s, done ++ rest = l → Inv done s →
      ∃ fuel final, (∀ more ≥ fuel, rest.foldlM (step more) s = some final) ∧ Inv l final from all l [] s rfl start
  intro rest
  induction rest with
  | nil =>
    intro done s whole inv
    rw [append_nil] at whole
    exact ⟨0,s,fun _ _ => rfl,whole ▸ inv⟩
  | cons a rest ih =>
    intro done s whole inv
    obtain ⟨fuel,next,runs,inv'⟩ := body done s a (by simp [← whole]) inv
    obtain ⟨fuel',final,continues,last⟩ := ih (done ++ [a]) next (by simpa using whole) inv'
    refine ⟨max fuel fuel',final,fun more enough => ?_,last⟩
    rw [foldlM_cons,runs more (by omega)]
    exact continues more (by omega)

/-- `while (cond s) s = body s` with a body that may give up itself. -/
def whileLoopM (cond : σ → Bool) (body : σ → Option σ) : ℕ → σ → Option σ
  | 0, s => if cond s then none else some s
  | fuel + 1, s => if cond s then (body s).bind (whileLoopM cond body fuel) else some s

theorem whileLoopM_total {body : ℕ → σ → Option σ} (Inv : σ → Prop) (measure : σ → ℕ)
    (round : ∀ s, Inv s → cond s = true → ∃ fuel next, (∀ more ≥ fuel, body more s = some next) ∧ Inv next ∧ measure next < measure s)
    (s : σ) (start : Inv s) :
    ∃ fuel final, (∀ inner ≥ fuel, ∀ outer ≥ fuel, whileLoopM cond (body inner) outer s = some final) ∧ Inv final ∧ cond final = false := by
  induction bound : measure s using Nat.strong_induction_on generalizing s with
  | _ n ih =>
    by_cases more : cond s = true
    · obtain ⟨fuel,next,runs,inv,less⟩ := round s start more
      obtain ⟨fuel',final,continues,last⟩ := ih (measure next) (bound ▸ less) next inv rfl
      refine ⟨max fuel fuel' + 1,final,fun inner enough outer enough' => ?_,last⟩
      obtain ⟨rounds,rfl⟩ : ∃ rounds, outer = rounds + 1 := ⟨outer - 1,by omega⟩
      rw [whileLoopM,if_pos more,runs inner (by omega),Option.bind_some]
      exact continues inner (by omega) rounds (by omega)
    · refine ⟨0,s,fun inner _ outer _ => ?_,start,by simpa using more⟩
      cases outer <;> rw [whileLoopM,if_neg more]

theorem forall_split_cons {Q : List α → α → Prop} {x : α} {l : List α} :
    (∀ done a rest, x :: l = done ++ a :: rest → Q done a) ↔ Q [] x ∧ ∀ done a rest, l = done ++ a :: rest → Q (x :: done) a := by
  constructor
  · intro every
    refine ⟨every [] x l rfl,fun done a rest split => every (x :: done) a rest (by simp [split])⟩
  · rintro ⟨first,others⟩ done a rest split
    cases done with
    | nil =>
      cases split
      exact first
    | cons y done =>
      obtain ⟨rfl,others_split⟩ := List.cons.inj split
      exact others done a rest others_split

theorem anyM_isSome {test : α → Option Bool} {l : List α} : (l.anyM test).isSome ↔
    ∀ done a rest, l = done ++ a :: rest → (∀ earlier ∈ done, test earlier = some false) → (test a).isSome := by
  induction l with
  | nil => simp
  | cons x l ih =>
    rw [forall_split_cons,anyM_cons]
    cases tested : test x with
    | none => simp
    | some passed =>
      cases passed with
      | true => simp [tested]
      | false => simpa [tested] using ih

/-! ### Runs that may be undefined -/

section Runs
variable {State Other Item : Type}

/-- The run gets to an end, and then to this state, if and only if the condition holds. -/
def Ends (run : Option State) (fits : Prop) (state : State) : Prop := ∀ other, run = some other ↔ fits ∧ other = state
/-- In every state from this one on, the next item is met where it fits. -/
def Fitting (step : State → Item → State) (fits : State → Item → Prop) : State → List Item → Prop
  | _, [] => True
  | s, item :: rest => fits s item ∧ Fitting step fits (step s item) rest

instance Fitting.decidable (step : State → Item → State) (fits : State → Item → Prop) [∀ s item, Decidable (fits s item)] :
    (s : State) → (items : List Item) → Decidable (Fitting step fits s items)
  | _, [] => inferInstanceAs (Decidable True)
  | s, item :: rest => @instDecidableAnd _ _ _ (Fitting.decidable step fits (step s item) rest)

variable {run : Option State} {fits fits' : Prop} {s : State} {t : Other} {step : State → Item → State}
  {holds : State → Item → Prop} {body : State → Item → Option State}

theorem Ends.pure (s : State) : Ends (some s) True s := by simp [Ends,eq_comm]
theorem Ends.congr (ends : Ends run fits s) (same : fits ↔ fits') : Ends run fits' s := fun other => by rw [ends other,same]

/-- One run after another fits where both do. -/
theorem Ends.bind (ends : Ends run fits s) {next : State → Option Other} (ends' : Ends (next s) fits' t) :
    Ends (run >>= next) (fits ∧ fits') t := by
  intro other
  rw [Option.bind_eq_bind,Option.bind_eq_some_iff]
  constructor
  · rintro ⟨u,ran,rest⟩
    obtain ⟨first,rfl⟩ := (ends u).mp ran
    obtain ⟨second,same⟩ := (ends' other).mp rest
    exact ⟨⟨first,second⟩,same⟩
  · rintro ⟨⟨first,second⟩,same⟩
    exact ⟨s,(ends s).mpr ⟨first,rfl⟩,(ends' other).mpr ⟨second,same⟩⟩

theorem Ends.map (ends : Ends run fits s) (f : State → Other) : Ends (run >>= fun s => some (f s)) fits (f s) :=
  (ends.bind (.pure (f s))).congr (and_iff_left trivial)

theorem Ends.some_iff (ends : Ends run fits s) (property : State → Prop) :
    (∃ other, run = some other ∧ property other) ↔ fits ∧ property s := by
  constructor
  · rintro ⟨other,ran,known⟩
    obtain ⟨first,rfl⟩ := (ends other).mp ran
    exact ⟨first,known⟩
  · exact fun ⟨first,known⟩ => ⟨s,(ends s).mpr ⟨first,rfl⟩,known⟩

/-- What ends step by step ends as a whole, as long as the steps keep what makes them end. -/
theorem foldlM_ends (good : State → Prop) (items : List Item) (ends : ∀ s, good s → ∀ item ∈ items, Ends (body s item) (holds s item) (step s item))
    (kept : ∀ s, good s → ∀ item ∈ items, good (step s item)) (start : good s) :
    Ends (items.foldlM body s) (Fitting step holds s items) (items.foldl step s) := by
  induction items generalizing s with
  | nil => exact .pure s
  | cons item rest ih =>
    exact (ends s start item mem_cons_self).bind (ih (fun s known item later => ends s known item (mem_cons_of_mem _ later))
      (fun s known item later => kept s known item (mem_cons_of_mem _ later)) (kept s start item mem_cons_self))

/-- The same where the states are known by an invariant, and what an item needs depends on nothing else. -/
theorem foldlM_reaches (Inv : List Item → State → Prop) (room : Item → Prop) (items : List Item)
    (ends : ∀ done s item rest, done ++ item :: rest = items → Inv done s →
      ∃ next, Inv (done ++ [item]) next ∧ Ends (body s item) (room item) next) (start : Inv [] s) :
    ∃ final, Inv items final ∧ Ends (items.foldlM body s) (∀ item ∈ items, room item) final := by
  suffices all : ∀ rest done s, done ++ rest = items → Inv done s →
      ∃ final, Inv items final ∧ Ends (rest.foldlM body s) (∀ item ∈ rest, room item) final from all items [] s rfl start
  intro rest
  induction rest with
  | nil =>
    intro done s whole inv
    rw [append_nil] at whole
    exact ⟨s,whole ▸ inv,(Ends.pure s).congr (by simp)⟩
  | cons item rest ih =>
    intro done s whole inv
    obtain ⟨next,inv',first⟩ := ends done s item rest whole inv
    obtain ⟨final,last,later⟩ := ih (done ++ [item]) next (by simpa using whole) inv'
    exact ⟨final,last,(first.bind later).congr forall_mem_cons.symm⟩

theorem forM_ends {test : Item → Option Unit} {room : Item → Prop} (items : List Item)
    (ends : ∀ item ∈ items, Ends (test item) (room item) ()) : Ends (items.forM test) (∀ item ∈ items, room item) () := by
  induction items with
  | nil => exact (Ends.pure ()).congr (by simp)
  | cons item rest ih =>
    have later := ih fun item member => ends item (mem_cons_of_mem _ member)
    exact ((ends item mem_cons_self).bind later).congr forall_mem_cons.symm

end Runs

end Osrm.Loops
