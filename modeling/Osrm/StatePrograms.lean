import Mathlib.Tactic

/-!
Programs with a state that may fail, and rules by which one proves that they end and what holds then: one for each way of
putting programs together. A rule for a loop has an invariant that speaks of what is done.
-/
namespace Osrm.StatePrograms
open List
universe u
variable {σ α β τ : Type u}

abbrev Program (σ α : Type u) := StateT σ Option α
/-- The program returns, and then `post` holds. -/
def Ends (program : Program σ α) (s : σ) (post : α → σ → Prop) : Prop := ∃ a s', program.run s = some (a,s') ∧ post a s'
/-- `while (cond t) t = body t`, which fails once so many rounds are over. -/
def whileM (cond : τ → Bool) (body : τ → Program σ τ) : ℕ → τ → Program σ τ
  | 0, t => if cond t then failure else pure t
  | rounds + 1, t => if cond t then body t >>= whileM cond body rounds else pure t

section Rules
variable {s : σ} {mid : α → σ → Prop} {post : β → σ → Prop}

/-- The rule of consequence. -/
theorem Ends.mono {program : Program σ α} {post' : α → σ → Prop} (ends : Ends program s mid) (weaker : ∀ a s', mid a s' → post' a s') :
    Ends program s post' := by
  obtain ⟨a,s',ran,holds⟩ := ends
  exact ⟨a,s',ran,weaker a s' holds⟩

theorem ends_pure {b : β} (holds : post b s) : Ends (pure b) s post := ⟨b,s,rfl,holds⟩

/-- The rule for sequences. -/
theorem Ends.bind {program : Program σ α} {rest : α → Program σ β} (first : Ends program s mid)
    (second : ∀ a s', mid a s' → Ends (rest a) s' post) : Ends (program >>= rest) s post := by
  obtain ⟨a,s',ran,holds⟩ := first
  obtain ⟨b,s'',later,final⟩ := second a s' holds
  exact ⟨b,s'',by rw [StateT.run_bind,ran]; exact later,final⟩

theorem ends_found {found : Option α} {a : α} {rest : α → Program σ β} (same : found = some a) (ends : Ends (rest a) s post) :
    Ends ((liftM found : Program σ α) >>= rest) s post := by
  obtain ⟨b,s',ran,holds⟩ := ends
  subst same
  exact ⟨b,s',ran,holds⟩

theorem foldlM_ends (Inv : List α → τ → σ → Prop) {step : τ → α → Program σ τ} (l : List α)
    (body : ∀ done t s a, a ∈ l → Inv done t s → Ends (step t a) s (Inv (done ++ [a]))) {t : τ} (start : Inv [] t s) :
    Ends (l.foldlM step t) s (Inv l) := by
  suffices all : ∀ rest done t s, done ++ rest = l → Inv done t s → Ends (rest.foldlM step t) s (Inv l) from all l [] t s rfl start
  intro rest
  induction rest with
  | nil =>
    intro done t s whole inv
    rw [append_nil] at whole
    exact ends_pure (whole ▸ inv)
  | cons a rest ih =>
    intro done t s whole inv
    have inside : a ∈ l := whole ▸ mem_append_right _ mem_cons_self
    rw [foldlM_cons]
    exact (body done t s a inside inv).bind fun t' s' inv' => ih (done ++ [a]) t' s' (by simpa using whole) inv'

theorem forM_ends {s : σ} (Inv : List α → σ → Prop) {step : α → Program σ PUnit} (l : List α)
    (body : ∀ done s a, a ∈ l → Inv done s → Ends (step a) s fun _ => Inv (done ++ [a])) (start : Inv [] s) :
    Ends (l.forM step) s fun _ => Inv l := by
  have same : l.forM step = l.foldlM (fun _ a => step a) PUnit.unit := by
    clear body
    induction l with
    | nil => rfl
    | cons a l ih =>
      show (step a >>= fun _ => l.forM step) = _
      rw [foldlM_cons,ih]
  rw [same]
  exact foldlM_ends (fun done _ => Inv done) l (fun done _ s a inside => body done s a inside) start

theorem mapM_ends (Inv : List α → List β → σ → Prop) {step : α → Program σ β} (l : List α)
    (body : ∀ done results s a, a ∈ l → Inv done results s → Ends (step a) s fun b => Inv (done ++ [a]) (results ++ [b]))
    (start : Inv [] [] s) : Ends (l.mapM step) s (Inv l) := by
  suffices all : ∀ rest done results s, done ++ rest = l → Inv done results s →
      Ends (rest.mapM step) s fun later => Inv l (results ++ later) from all l [] [] s rfl start
  intro rest
  induction rest with
  | nil =>
    intro done results s whole inv
    rw [append_nil] at whole
    rw [mapM_nil]
    exact ends_pure (by rw [append_nil]; exact whole ▸ inv)
  | cons a rest ih =>
    intro done results s whole inv
    have inside : a ∈ l := whole ▸ mem_append_right _ mem_cons_self
    rw [mapM_cons]
    refine (body done results s a inside inv).bind fun b s' inv' => ?_
    refine (ih (done ++ [a]) (results ++ [b]) s' (by simpa using whole) inv').bind fun later s'' final => ?_
    exact ends_pure (by simpa using final)

theorem whileM_ends (Inv : τ → σ → Prop) (measure : τ → ℕ) {cond : τ → Bool} {body : τ → Program σ τ}
    (round : ∀ t s, Inv t s → cond t = true → Ends (body t) s fun t' s' => Inv t' s' ∧ measure t' < measure t) {rounds : ℕ} {t : τ}
    (enough : measure t ≤ rounds) (start : Inv t s) :
    Ends (whileM cond body rounds t) s fun t' s' => Inv t' s' ∧ cond t' = false := by
  induction rounds generalizing t s with
  | zero =>
    by_cases more : cond t = true
    · obtain ⟨t',s',-,-,less⟩ := round t s start more
      omega
    · rw [whileM,if_neg more]
      exact ends_pure ⟨start,by simpa using more⟩
  | succ rounds ih =>
    rw [whileM]
    split
    · rename_i more
      exact (round t s start more).bind fun t' s' ⟨inv,less⟩ => ih (by omega) inv
    · rename_i stop
      exact ends_pure ⟨start,by simpa using stop⟩

end Rules

end Osrm.StatePrograms
