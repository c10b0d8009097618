import Mathlib

/-!
Trees that grow at their leaves. An item has a key and the key of its parent, and the
items stand in the order in which they came, the newest first. The path of a key is the
way from its item to the root. Items that come later leave it as it is.
-/
namespace Cspn.Paths
open List

/-- No two items have one key, and none has that of the root. -/
def Distinct {α κ : Type} (key : α → κ) (root : κ) (items : List α) : Prop := (root :: items.map key).Nodup

section
variable {α κ : Type} {key : α → κ} {root : κ} {items : List α} {a b : α}

theorem Distinct.tail (distinct : Distinct key root (a :: items)) : Distinct key root items := by
  unfold Distinct at distinct ⊢
  simp only [map_cons, nodup_cons, mem_cons, not_or] at distinct ⊢
  exact ⟨distinct.1.2, distinct.2.2⟩

theorem Distinct.ne_root (distinct : Distinct key root items) (member : a ∈ items) : key a ≠ root := by
  intro same
  exact (nodup_cons.mp distinct).1 (same ▸ mem_map_of_mem member)

theorem Distinct.injective (distinct : Distinct key root items) (first : a ∈ items) (second : b ∈ items)
    (same : key a = key b) : a = b :=
  inj_on_of_nodup_map (nodup_cons.mp distinct).2 first second same

end

variable {α κ : Type} [DecidableEq κ] (key parent : α → κ) (root : κ)

/-- The items from a key to the root, the item with the key first. -/
def path : List α → κ → Option (List α)
  | [], k => if k = root then some [] else none
  | a :: older, k => if key a = k then (path older (parent a)).map (a :: ·) else path older k

variable {key parent root} {items way rest : List α} {a b : α} {k : κ}

theorem path_cons_of_ne (other : key a ≠ k) :
    path key parent root (a :: items) k = path key parent root items k := if_neg other

theorem path_cases (found : path key parent root items k = some way) :
    way = [] ∧ k = root ∨ ∃ a rest, way = a :: rest ∧ a ∈ items ∧ key a = k := by
  induction items generalizing k way with
  | nil =>
    rw [path] at found
    split at found
    next atRoot => cases found; exact .inl ⟨rfl, atRoot⟩
    next => cases found
  | cons b older ih =>
    rw [path] at found
    split at found
    next here =>
      obtain ⟨rest, -, rfl⟩ := Option.map_eq_some_iff.mp found
      exact .inr ⟨b, rest, rfl, .head _, here⟩
    next =>
      rcases ih found with ends | ⟨a, rest, is, member, named⟩
      · exact .inl ends
      · exact .inr ⟨a, rest, is, .tail _ member, named⟩

theorem key_of_path (found : path key parent root items k = some (a :: rest)) : key a = k := by
  rcases path_cases found with ⟨empty, -⟩ | ⟨b, tail, same, -, named⟩
  · cases empty
  · cases same; exact named

theorem known_of_path (found : path key parent root items k = some way) : k ∈ root :: items.map key := by
  rcases path_cases found with ⟨-, rfl⟩ | ⟨a, rest, -, member, rfl⟩
  · exact .head _
  · exact .tail _ (mem_map_of_mem member)

theorem path_root (distinct : Distinct key root items) : path key parent root items root = some [] := by
  induction items with
  | nil => exact if_pos rfl
  | cons b older ih => rw [path_cons_of_ne (distinct.ne_root (.head _)), ih distinct.tail]

theorem path_cons (distinct : Distinct key root (a :: items)) (found : path key parent root items k = some way) :
    path key parent root (a :: items) k = some way := by
  rw [path_cons_of_ne, found]
  rintro rfl
  have known := known_of_path found
  unfold Distinct at distinct
  simp only [map_cons, nodup_cons, mem_cons, not_or] at distinct known
  rcases known with atRoot | later
  · exact distinct.1.1 atRoot.symm
  · exact distinct.2.1 later

section
variable (distinct : Distinct key root items)
include distinct

theorem path_tail (found : path key parent root items k = some (a :: rest)) :
    path key parent root items (parent a) = some rest := by
  induction items generalizing k a rest with
  | nil =>
    rw [path] at found
    split at found <;> cases found
  | cons b older ih =>
    rw [path] at found
    split at found
    next here =>
      obtain ⟨tail, below, same⟩ := Option.map_eq_some_iff.mp found
      cases same
      exact path_cons distinct below
    next => exact path_cons distinct (ih distinct.tail found)

theorem mem_of_path (found : path key parent root items k = some way) : ∀ a ∈ way, a ∈ items := by
  induction way generalizing k with
  | nil => simp
  | cons b rest ih =>
    refine forall_mem_cons.mpr ⟨?_, ih (path_tail distinct found)⟩
    rcases path_cases found with ⟨empty, -⟩ | ⟨a, tail, same, member, -⟩
    · cases empty
    · cases same; exact member

theorem path_suffix {front : List α} (found : path key parent root items k = some (front ++ a :: rest)) :
    path key parent root items (key a) = some (a :: rest) := by
  induction front generalizing k with
  | nil => rw [key_of_path found]; exact found
  | cons b front ih => exact ih (path_tail distinct found)

theorem not_mem_rest (found : path key parent root items k = some (a :: rest)) : a ∉ rest := by
  intro member
  obtain ⟨front, behind, rfl⟩ := append_of_mem member
  have again := path_suffix distinct (path_tail distinct found)
  rw [key_of_path found, found] at again
  have length := congrArg length (Option.some.inj again)
  simp at length
  omega

theorem first_of_closed {P : α → Prop}
    (closed : ∀ {k a rest}, path key parent root items k = some (a :: rest) → P a → ∀ b ∈ rest, P b)
    (found : path key parent root items k = some way) (member : a ∈ way) (fails : ¬ P a)
    (others : ∀ b ∈ way, b ≠ a → P b) : ∃ rest, way = a :: rest := by
  obtain ⟨front, rest, rfl⟩ := append_of_mem member
  cases front with
  | nil => exact ⟨rest, rfl⟩
  | cons top front =>
    have other : top ≠ a := by
      rintro rfl
      exact not_mem_rest distinct found (by simp)
    exact absurd (closed found (others top (by simp) other) a (by simp)) fails

theorem path_unique {others : List α} {way' : List α} (distinct' : Distinct key root others)
    (same : ∀ a ∈ items, ∀ b ∈ others, key a = key b → a = b)
    (found : path key parent root items k = some way) (found' : path key parent root others k = some way') :
    way = way' := by
  induction way generalizing k way' with
  | nil =>
    rcases path_cases found with ⟨-, rfl⟩ | ⟨_, _, is, -⟩
    · rw [path_root distinct'] at found'
      exact Option.some.inj found'
    · cases is
  | cons a rest ih =>
    rcases path_cases found with ⟨is, -⟩ | ⟨_, _, is, member, named⟩
    · cases is
    · cases is
      rcases path_cases found' with ⟨-, atRoot⟩ | ⟨b, rest', rfl, member', named'⟩
      · exact absurd (named.trans atRoot) (distinct.ne_root member)
      · cases same a member b member' (named.trans named'.symm)
        rw [ih (path_tail distinct found) (path_tail distinct' found')]

end

end Cspn.Paths
