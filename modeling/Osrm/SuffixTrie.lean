import Mathlib.Data.List.Infix

/-!
Following a walk by the longest word of a trie that it ends with. The words have at least `m` letters, and the words
that are at least that long are closed under taking the last letter off.
-/
namespace Osrm.SuffixTrie
open List
variable {α : Type} {T : List α → Prop} {m : ℕ}

structure Trie (T : List α → Prop) (m : ℕ) : Prop where
  some_letter : 1 ≤ m
  long : ∀ word, T word → m ≤ word.length
  init : ∀ word a, T (word ++ [a]) → m ≤ word.length → T word

/-- The longest word of the trie that the walk ends with. -/
structure Longest (T : List α → Prop) (walk word : List α) : Prop where
  mem : T word
  ends : word <:+ walk
  greatest : ∀ other, T other → other <:+ walk → other.length ≤ word.length

def At (T : List α → Prop) (walk : List α) : Option (List α) → Prop
  | none => ∀ word, T word → ¬ word <:+ walk
  | some word => Longest T walk word

variable {walk word stem other : List α} {a : α}

theorem Longest.suffix_iff (longest : Longest T walk word) (mem : T other) : other <:+ walk ↔ other <:+ word :=
  ⟨fun ends => suffix_of_suffix_length_le ends longest.ends (longest.greatest other mem ends),fun ends => ends.trans longest.ends⟩

theorem Longest.extend (trie : Trie T m) (longest : Longest T walk word) (enough : m ≤ stem.length) (next : T (stem ++ [a]))
    (ends : stem <:+ word) (greatest : ∀ other, T (other ++ [a]) → other <:+ word → other.length ≤ stem.length) :
    Longest T (walk ++ [a]) (stem ++ [a]) where
  mem := next
  ends := suffix_concat_iff.mpr (.inr ⟨stem,rfl,ends.trans longest.ends⟩)
  greatest other mem suffix := by
    rcases suffix_concat_iff.mp suffix with rfl | ⟨shorter,rfl,inner⟩
    · exact Nat.zero_le _
    · rw [length_append,length_append]
      apply Nat.add_le_add_right
      rcases Nat.lt_or_ge shorter.length m with short | long
      · exact short.le.trans enough
      · exact greatest shorter mem ((longest.suffix_iff (trie.init shorter a mem long)).mp inner)

theorem length_of_stuck (trie : Trie T m) {state : Option (List α)} (here : At T walk state)
    (stuck : ∀ word, state = some word → ∀ stem, stem <:+ word → m ≤ stem.length → ¬ T (stem ++ [a]))
    (mem : T other) (suffix : other <:+ walk ++ [a]) : other.length = m := by
  have long := trie.long other mem
  rcases suffix_concat_iff.mp suffix with rfl | ⟨shorter,rfl,inner⟩
  · rw [length_nil] at long ⊢
    omega
  · rw [length_append,length_singleton] at long ⊢
    rcases Nat.lt_or_ge shorter.length m with short | enough
    · omega
    · have known := trie.init shorter a mem enough
      cases state with
      | none => exact absurd inner (here shorter known)
      | some word => exact absurd mem (stuck word rfl shorter ((Longest.suffix_iff here known).mp inner) enough)

end Osrm.SuffixTrie
